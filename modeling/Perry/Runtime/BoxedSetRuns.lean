import Perry.Machine.Runs
import Perry.Runtime.BoxedSet

/-! Runs over a `Set`: the entry points that a program calls, and the list of distinct values that
the set stands for. -/
namespace Perry.Runtime.BoxedSet

open Words Machine

/-- How an entry point is given its value. -/
inductive Argument where
  | value (v : Bits)
  | number (v : Bits)
  | string (address : Nat)
  | i32 (n : BitVec 32)
  | u32 (n : BitVec 32)
  | bool (n : BitVec 32)

namespace Argument

variable (memory : Memory)

def Valid : Argument → Prop
  | value v => BoxedSet.Valid memory v
  | number v => BoxedSet.Valid memory v
  | string address => 0x1000 ≤ address ∧ address < 2 ^ 48
  | i32 _ => True
  | u32 _ => True
  | bool _ => True

def meaning : Argument → Meaning
  | value v => BoxedSet.meaning memory v
  | number v => BoxedSet.meaning memory v
  | string address => .string (memory.bytes address)
  | i32 n => .number (.finite n.toInt)
  | u32 n => .number (.finite n.toNat)
  | bool n => .boolean (n ≠ 0)

/-- The value that the entry point passes on. -/
def passed : Argument → Bits
  | value v => v
  | number v => numberValue v
  | string address => boxedHeapStringValue address
  | i32 n => boxedI32Value n
  | u32 n => ofU32 n
  | bool n => boxedBoolValue n

/-- The value that is looked up. -/
def sought (a : Argument) : Bits := normalizeZero a.passed

end Argument

inductive Op where
  | add (a : Argument)
  | has (a : Argument)
  | delete (a : Argument)
  | clear
  | valueAt (index : Nat)
  | toArray

inductive Answer (α : Type) where
  | done
  | flag (b : Bool)
  | value (a : α)
  | values (as : List α)
  deriving DecidableEq

def Answer.map {α β : Type} (f : α → β) : Answer α → Answer β
  | done => .done
  | flag b => .flag b
  | value a => .value (f a)
  | values as => .values (as.map f)

section running

variable (memory : Memory)

def add (set : SetHeader) : Argument → Option SetHeader
  | .value v => jsSetAdd memory set v
  | .number v => jsSetAddNumber memory set v
  | .string address => jsSetAddString memory set address
  | .i32 n => jsSetAddI32 memory set n
  | .u32 n => jsSetAddU32 memory set n
  | .bool n => jsSetAddBool memory set n

def has (set : SetHeader) : Argument → Option Bool
  | .value v => jsSetHas memory set v
  | .number v => jsSetHasNumber memory set v
  | .string address => jsSetHasString memory set address
  | .i32 n => jsSetHasI32 memory set n
  | .u32 n => jsSetHasU32 memory set n
  | .bool n => jsSetHasBool memory set n

def delete (set : SetHeader) : Argument → Option (SetHeader × Bool)
  | .value v => jsSetDelete memory set v
  | .number v => jsSetDeleteNumber memory set v
  | .string address => jsSetDeleteString memory set address
  | .i32 n => jsSetDeleteI32 memory set n
  | .u32 n => jsSetDeleteU32 memory set n
  | .bool n => jsSetDeleteBool memory set n

def perform (set : SetHeader) : Op → Option (SetHeader × Answer Bits)
  | .add a => (add memory set a).map fun set => (set,.done)
  | .has a => (has memory set a).map fun found => (set,.flag found)
  | .delete a => (delete memory set a).map fun result => (result.1,.flag result.2)
  | .clear => some (jsSetClear set,.done)
  | .valueAt index => some ((jsSetValueAt memory set index).1,.value (jsSetValueAt memory set index).2)
  | .toArray => some ((jsSetToArray memory set).1,.values (jsSetToArray memory set).2)

/-- The set, and what its operations have answered. -/
structure State where
  set : SetHeader
  answers : List (Answer Bits)

def start (capacity : BitVec 32) : State := ⟨jsSetAlloc capacity,[]⟩

def step (s : State) (op : Op) : Option State :=
  (perform memory s.set op).map fun result => ⟨result.1,s.answers ++ [result.2]⟩

/-- The values of the set in the order in which they have been added, and the answers so far. -/
structure Reference where
  members : List Meaning
  answers : List (Answer Meaning)

def Reference.step (r : Reference) : Op → Reference
  | .add a => ⟨if a.meaning memory ∈ r.members then r.members else r.members ++ [a.meaning memory],r.answers ++ [.done]⟩
  | .has a => ⟨r.members,r.answers ++ [.flag (a.meaning memory ∈ r.members)]⟩
  | .delete a => ⟨r.members.erase (a.meaning memory),r.answers ++ [.flag (a.meaning memory ∈ r.members)]⟩
  | .clear => ⟨[],r.answers ++ [.done]⟩
  | .valueAt index => ⟨r.members,r.answers ++ [.value (r.members[index]?.getD .undefined)]⟩
  | .toArray => ⟨r.members,r.answers ++ [.values r.members]⟩

def reference (ops : List Op) : Reference := ops.foldl (Reference.step memory) ⟨[],[]⟩

/-- Every answer, the size and the order of the elements are those of the list. -/
structure Agrees (s : State) (r : Reference) : Prop where
  answers : s.answers.map (Answer.map (meaning memory)) = r.answers
  size : s.set.size = r.members.length
  order : s.set.live.map (meaning memory) = r.members

def Op.argument : Op → Option Argument
  | add a => some a
  | has a => some a
  | delete a => some a
  | clear => none
  | valueAt _ => none
  | toArray => none

/-- How many elements are left in a buffer that the operation squeezes. -/
def squeezed (set : SetHeader) : Op → Option Nat
  | .add a => if set.index (keyOf memory a.sought) = none ∧ set.used = set.capacity ∧ set.size < set.used then some set.size else none
  | .delete a =>
    if set.index (keyOf memory a.sought) ≠ none ∧ 16 ≤ set.used ∧ set.size - 1 < set.used / 2 then some (set.size - 1) else none
  | .valueAt index => if index < set.size ∧ set.used ≠ set.size then some set.size else none
  | .toArray => if set.used ≠ set.size then some set.size else none
  | .has _ => none
  | .clear => none

/-- No element clashes with the value, a number is not taken for the address of a string, no more
than the index is rebuilt for is squeezed, and an index is within the positive ones. -/
structure Meets (s : State) (op : Op) : Prop where
  apart : ∀ a,op.argument = some a → ∀ b ∈ s.set.live,¬ Clash memory b a.sought
  number : ∀ a,op.argument = some a → isNumber a.sought = true →
    readable memory a.sought = true ∧ isStringLike memory a.sought = false
  small : ∀ left,squeezed memory s.set op = some left → left ≤ 16000000
  narrow : s.set.used < 2 ^ 31

end running

section arguments

variable {memory : Memory} {v : Bits}

theorem toNat_boxed {tag payload : Nat} (narrow : tag < 2 ^ 16) (small : payload < 2 ^ 48) :
    (boxed tag payload).toNat = tag * 2 ^ 48 + payload := by
  rw [boxed,BitVec.toNat_ofNat]
  omega

theorem upper_boxed {tag payload : Nat} (narrow : tag < 2 ^ 16) (small : payload < 2 ^ 48) : upper (boxed tag payload) = tag := by
  rw [upper,toNat_boxed narrow small]
  omega

theorem payload_boxed {tag address : Nat} (narrow : tag < 2 ^ 16) (small : address < 2 ^ 48) : payload (boxed tag address) = address := by
  rw [payload,toNat_boxed narrow small]
  omega

theorem isInt32_boxed (n : BitVec 32) : isInt32 (boxedI32Value n) = true := by
  have small := n.isLt
  rw [isInt32,boxedI32Value,toNat_boxed (by decide) (by omega),decide_eq_true_eq]
  omega

theorem asInt32_boxed (n : BitVec 32) : asInt32 (boxedI32Value n) = n := by
  have small := n.isLt
  apply BitVec.eq_of_toNat_eq
  rw [asInt32,BitVec.toNat_setWidth,boxedI32Value,toNat_boxed (by decide) (by omega),int32Tag]
  omega

theorem meaning_int32 (shape : isInt32 v = true) : meaning memory v = .number (.finite (asInt32 v).toInt) := by
  rw [meaning,isNumber_tagged (upper_of_int32 shape) (by decide) (by decide),shape]
  rfl

theorem meaning_number (shape : isNumber v = true) : meaning memory v = .number (numeric (.fromBits v)) := if_pos shape

/-- A whole number as a double. -/
theorem toBits_whole (negative : Bool) {m : Nat} (narrow : m < 2 ^ 53) :
    isNumber (Binary64.toBits (.finite (.whole negative m narrow))) = true ∧
      numeric (.fromBits (Binary64.toBits (.finite (.whole negative m narrow)))) = .finite (if negative then -(m : ℚ) else m) := by
  obtain ⟨d,shape,sign,size⟩ := Binary64.fromBits_toBits (.whole negative m narrow)
  refine ⟨isNumber_of_finite shape,?_⟩
  rw [shape,numeric,← Double.value_whole negative narrow,Double.value,sign,size]
  rfl

theorem ofI32_eq (n : BitVec 32) : isNumber (ofI32 n) = true ∧ meaning memory (ofI32 n) = .number (.finite n.toInt) := by
  obtain ⟨number,value⟩ := toBits_whole n.msb (natAbs_toInt_lt n)
  refine ⟨number,(meaning_number number).trans (congrArg Meaning.number (value.trans (congrArg Numeric.finite ?_)))⟩
  split
  · next below =>
    rw [BitVec.msb_eq_toInt,decide_eq_true_eq] at below
    have size : -(n.toInt.natAbs : Int) = n.toInt := by omega
    exact_mod_cast size
  · next above =>
    rw [BitVec.msb_eq_toInt,decide_eq_true_eq] at above
    have size : (n.toInt.natAbs : Int) = n.toInt := by omega
    rw [← Int.cast_natCast,size]

theorem ofU32_eq (n : BitVec 32) : isNumber (ofU32 n) = true ∧ meaning memory (ofU32 n) = .number (.finite n.toNat) := by
  obtain ⟨number,value⟩ := toBits_whole false (toNat_lt n)
  exact ⟨number,(meaning_number number).trans (congrArg Meaning.number value)⟩

theorem numeric_zero : numeric (.fromBits (Binary64.zero false)) = .finite 0 := by
  obtain ⟨d,shape⟩ := @Binary64.fromBits_ordinary (Binary64.zero false) (by decide)
  obtain ⟨-,-,mantissa,-⟩ := Binary64.fromBits_finite shape
  have empty : isZero (.finite d) = true := decide_eq_true mantissa
  rw [shape,numeric,value_eq_zero empty]

/-- Zero and the NaN are numbers of the same value however they are written. -/
theorem meaning_normalizeZero (v : Bits) : meaning memory (normalizeZero v) = meaning memory v := by
  by_cases number : isNumber v = true
  · rw [meaning_number number,meaning_number (isNumber_normalizeZero number)]
    cases value : Binary64.fromBits v with
    | nan =>
      rw [normalizeZero_nan number value]
      rfl
    | infinite => rw [normalizeZero_infinite number value,value]
    | finite d =>
      rw [normalizeZero_finite value]
      split
      · next zero => rw [numeric_zero,numeric,zero]
      · rw [value]
  · by_cases hole : v = tagHole
    · rw [hole,normalizeZero,if_pos rfl]
      rfl
    · rw [normalizeZero_tagged (Bool.eq_false_iff.mpr number) hole]

theorem numberValue_int32 (shape : isInt32 v = true) : numberValue v = normalizeZero (ofI32 (asInt32 v)) := by
  rw [numberValue,normalizeNumberValueFromBoxed,if_pos shape,Option.getD_some]

theorem numberValue_number (shape : isNumber v = true) : numberValue v = normalizeZero v := by
  rw [numberValue,normalizeNumberValueFromBoxed,isInt32_of_number shape,if_neg Bool.false_ne_true,if_pos shape,Option.getD_some]

theorem numberValue_other (integer : isInt32 v = false) (number : isNumber v = false) : numberValue v = v := by
  rw [numberValue,normalizeNumberValueFromBoxed,integer,number,if_neg Bool.false_ne_true,if_neg Bool.false_ne_true,Option.getD_none]

/-- A boxed integer is taken as the double, and means the same. -/
theorem numberValue_eq (valid : Valid memory v) : Valid memory (numberValue v) ∧ meaning memory (numberValue v) = meaning memory v := by
  by_cases integer : isInt32 v = true
  · obtain ⟨number,value⟩ := @ofI32_eq memory (asInt32 v)
    rw [numberValue_int32 integer,meaning_normalizeZero,value,meaning_int32 integer]
    exact ⟨.number (isNumber_normalizeZero number),rfl⟩
  · by_cases number : isNumber v = true
    · rw [numberValue_number number,meaning_normalizeZero]
      exact ⟨.number (isNumber_normalizeZero number),rfl⟩
    · rw [numberValue_other (Bool.eq_false_iff.mpr integer) (Bool.eq_false_iff.mpr number)]
      exact ⟨valid,rfl⟩

theorem boxedBoolValue_eq (n : BitVec 32) :
    boxedBoolValue n ∈ constants ∧ meaning memory (boxedBoolValue n) = .boolean (n ≠ 0) := by
  rw [boxedBoolValue]
  by_cases zero : n = 0
  · rw [if_neg (not_not.mpr zero),decide_eq_false (not_not.mpr zero)]
    exact ⟨by decide,rfl⟩
  · rw [if_pos zero,decide_eq_true zero]
    exact ⟨by decide,rfl⟩

theorem boxedHeapStringValue_eq {address : Nat} (placed : address < 2 ^ 48) : upper (boxedHeapStringValue address) = stringTag ∧
    payload (boxedHeapStringValue address) = address := by
  rw [boxedHeapStringValue,Nat.mod_eq_of_lt placed]
  exact ⟨upper_boxed (by decide) placed,payload_boxed (by decide) placed⟩

theorem meaning_string (tagged : upper v = stringTag) : meaning memory v = .string (memory.bytes (payload v)) := by
  rw [meaning,isNumber_tagged tagged (by decide) (by decide),isInt32_tagged tagged (by decide),if_neg Bool.false_ne_true,
    if_neg Bool.false_ne_true,if_neg (by rw [tagged]; decide),if_neg (by rw [tagged]; decide),if_pos tagged]

/-- Every entry point passes on a valid value that means what it was given. -/
theorem Argument.passed_eq {a : Argument} (valid : a.Valid memory) : BoxedSet.Valid memory a.passed ∧
    BoxedSet.meaning memory a.passed = a.meaning memory := by
  cases a with
  | value v => exact ⟨valid,rfl⟩
  | number v => exact numberValue_eq valid
  | string address =>
    obtain ⟨tagged,same⟩ := boxedHeapStringValue_eq valid.2
    refine ⟨.string tagged (same.symm ▸ valid.1),(meaning_string tagged).trans ?_⟩
    rw [same]
    rfl
  | i32 n =>
    refine ⟨.int32 (isInt32_boxed n),(meaning_int32 (isInt32_boxed n)).trans ?_⟩
    rw [asInt32_boxed]
    rfl
  | u32 n => exact ⟨.number (@ofU32_eq memory n).1,(ofU32_eq n).2⟩
  | bool n => exact ⟨.constant (@boxedBoolValue_eq memory n).1,(boxedBoolValue_eq n).2⟩

theorem Argument.meaning_sought {a : Argument} (valid : a.Valid memory) : BoxedSet.meaning memory a.sought = a.meaning memory :=
  (meaning_normalizeZero a.passed).trans (a.passed_eq valid).2

theorem Argument.stored_sought {a : Argument} (valid : a.Valid memory)
    (number : isNumber a.sought = true → isStringLike memory a.sought = false) : Stored memory a.sought :=
  stored_normalizeZero (a.passed_eq valid).1 number

theorem normalizeZero_ne_hole (v : Bits) : normalizeZero v ≠ tagHole := by
  by_cases number : isNumber v = true
  · exact ne_hole (isNumber_normalizeZero number)
  · by_cases hole : v = tagHole
    · rw [hole,normalizeZero,if_pos rfl]
      decide
    · rwa [normalizeZero_tagged (Bool.eq_false_iff.mpr number) hole]

theorem isNumber_of_plain (plain : isPlainNonzeroNumberBits v = true) : isNumber v = true := by
  rw [isPlainNonzeroNumberBits,Bool.and_eq_true,decide_eq_true_eq] at plain
  have prefix_clear := plain.1
  have small := v.isLt
  rw [isNumber_iff,upper]
  omega

/-- A plain number that is not taken for an address is known by its bits. -/
theorem keyOf_plain (plain : isPlainNonzeroNumberBits v = true) (number : isNumber v = true → isStringLike memory v = false) :
    keyOf memory v = .identity v := by
  have shape := isNumber_of_plain plain
  refine keyOf_eq_identity ?_ (number shape)
  rw [isNumber_iff] at shape
  rw [pointerTag]
  omega

variable {set : SetHeader} {a : Argument}

theorem add_eq (valid : a.Valid memory) : add memory set a = addValue memory set a.sought := by
  cases a with
  | string address =>
    rw [Argument.sought,Argument.passed,normalizeZero_tag (boxedHeapStringValue_eq valid.2).1 (by decide) (by decide) (by decide)]
    rfl
  | value | number | i32 | u32 | bool => rfl

theorem has_eq (valid : a.Valid memory) : has memory set a = hasValue memory set a.sought := by
  cases a with
  | string address =>
    rw [Argument.sought,Argument.passed,normalizeZero_tag (boxedHeapStringValue_eq valid.2).1 (by decide) (by decide) (by decide)]
    rfl
  | value | number | i32 | u32 | bool => rfl

theorem delete_eq : delete memory set a = jsSetDelete memory set a.passed := by
  cases a <;> rfl

end arguments

section refinement

variable {memory : Memory} {s : State} {r : Reference} {a : Argument} {op : Op}

/-- The set stands for the list, and has answered as the list. -/
structure Refines (memory : Memory) (s : State) (r : Reference) : Prop where
  well : (s.set.abstract memory).WellFormed
  stored : ∀ b ∈ s.set.elements,b = tagHole ∨ Stored memory b
  members : s.set.live.map (meaning memory) = r.members
  answers : s.answers.map (Answer.map (meaning memory)) = r.answers

def Op.Valid (memory : Memory) : Op → Prop
  | add a => a.Valid memory
  | has a => a.Valid memory
  | delete a => a.Valid memory
  | clear => True
  | valueAt _ => True
  | toArray => True

theorem Refines.agrees (refines : Refines memory s r) : Agrees memory s r where
  answers := refines.answers
  size := by rw [← refines.members,List.length_map,length_live refines.well]
  order := refines.members

theorem Refines.live (refines : Refines memory s r) {b : Bits} (member : b ∈ s.set.live) : Stored memory b := by
  obtain ⟨inside,solid⟩ := List.mem_filter.mp member
  exact (refines.stored b inside).resolve_left (of_decide_eq_true solid)

theorem Refines.start (memory : Memory) (capacity : BitVec 32) : Refines memory (start capacity) ⟨[],[]⟩ where
  well := .alloc _
  stored := fun _ member => (List.not_mem_nil member).elim
  members := rfl
  answers := rfl

theorem sought_of (refines : Refines memory s r) (valid : a.Valid memory) (meets : Meets memory s op)
    (given : op.argument = some a) : Sought memory s.set a.sought where
  read := readable_normalizeZero (a.passed_eq valid).1 fun number => (meets.number a given number).1
  solid := normalizeZero_ne_hole _
  exact := fun plain => keyOf_plain plain fun number => (meets.number a given number).2
  near := by
    intro place entry
    obtain ⟨inside,-⟩ := List.getElem?_eq_some_iff.mp ((refines.well.indexed _ place).mp entry)
    have used := abstract_used memory s.set
    have narrow := meets.narrow
    rw [JsSet.SetHeader.used] at used
    omega

/-- For the elements of the set and the value, to be one key is to stand for one value. -/
theorem key_iff (refines : Refines memory s r) (valid : a.Valid memory) (meets : Meets memory s op)
    (given : op.argument = some a) {b : Bits} (member : b ∈ s.set.live) :
    keyOf memory b = keyOf memory a.sought ↔ meaning memory b = a.meaning memory := by
  have stored := Argument.stored_sought valid fun number => (meets.number a given number).2
  rw [(refines.live member).key_iff stored (meets.apart a given b member),Argument.meaning_sought valid]

theorem mem_iff (refines : Refines memory s r) (valid : a.Valid memory) (meets : Meets memory s op)
    (given : op.argument = some a) : keyOf memory a.sought ∈ (s.set.abstract memory).live ↔ a.meaning memory ∈ r.members := by
  rw [abstract_live,← refines.members,List.mem_map,List.mem_map]
  exact exists_congr fun b => and_congr_right fun member => key_iff refines valid meets given member

theorem live_meaning {set : SetHeader} (stored : ∀ b ∈ set.elements,b = tagHole ∨ Stored memory b) :
    set.live.map (meaning memory) = (set.abstract memory).live.map (Key.meaning memory) := by
  rw [abstract_live,List.map_map]
  refine List.map_congr_left fun b member => ?_
  obtain ⟨inside,solid⟩ := List.mem_filter.mp member
  exact ((stored b inside).resolve_left (of_decide_eq_true solid)).meaning.symm

/-- The first that is erased is the same one, by its key and by its value. -/
theorem map_erase {α κ μ : Type} [DecidableEq κ] [DecidableEq μ] {key : α → κ} {value : α → μ} {read : κ → μ} {k : κ} {x : μ}
    (l : List α) (apart : ∀ b ∈ l,key b = k ↔ value b = x) (through : ∀ b ∈ l,read (key b) = value b) :
    ((l.map key).erase k).map read = (l.map value).erase x := by
  induction l with
  | nil => rfl
  | cons b rest ih =>
    obtain ⟨here,apart⟩ := List.forall_mem_cons.mp apart
    obtain ⟨same,through⟩ := List.forall_mem_cons.mp through
    rw [List.map_cons,List.map_cons]
    by_cases found : key b = k
    · rw [found,here.mp found,List.erase_cons_head,List.erase_cons_head,List.map_map]
      exact List.map_congr_left through
    · rw [List.erase_cons_tail (by simpa using found),List.erase_cons_tail (by simpa using fun wrong => found (here.mpr wrong)),
        List.map_cons,same,ih apart through]

/-- An answer that does not change the set, or changes no more than how it is laid out. -/
theorem Refines.answered (refines : Refines memory s r) {set : SetHeader} {answer : Answer Bits}
    (well : (set.abstract memory).WellFormed) (live : (set.abstract memory).live = (s.set.abstract memory).live)
    (kept : ∀ b ∈ set.elements,b ∈ s.set.elements) :
    Refines memory ⟨set,s.answers ++ [answer]⟩ ⟨r.members,r.answers ++ [answer.map (meaning memory)]⟩ where
  well := well
  stored := fun b member => refines.stored b (kept b member)
  members := by
    rw [live_meaning fun b member => refines.stored b (kept b member),live,← live_meaning refines.stored]
    exact refines.members
  answers := by rw [List.map_append,refines.answers,List.map_singleton]

theorem Meets.narrow_used (meets : Meets memory s op) : (s.set.abstract memory).used ≤ 2 ^ 31 :=
  (abstract_used memory s.set).trans_le meets.narrow.le

theorem Refines.index_none (refines : Refines memory s r) {k : Key} :
    s.set.index k = none ↔ k ∉ (s.set.abstract memory).live :=
  refines.well.index_none

/-- The bounds of an addition. -/
theorem Refines.canGrow (refines : Refines memory s r) (meets : Meets memory s (.add a))
    (absent : JsSet.normalizeZero known (some (keyOf memory a.sought)) ∉ (s.set.abstract memory).live) : JsSet.CanGrow (s.set.abstract memory) where
  reclaimed := by
    rintro ⟨full,holey,-⟩
    rw [abstract_used] at full holey
    exact meets.small _ (if_pos ⟨refines.index_none.mpr absent,full,holey⟩)
  doubled := by
    intro full _
    rw [← full,abstract_used]
    exact meets.narrow

theorem Refines.add (refines : Refines memory s r) (valid : a.Valid memory) (meets : Meets memory s (.add a)) :
    ∃ t,step memory s (.add a) = some t ∧ Refines memory t (r.step memory (.add a)) := by
  have sought := sought_of refines valid meets rfl
  have stored := Argument.stored_sought valid fun number => (meets.number a rfl number).2
  have narrow := meets.narrow_used
  obtain ⟨after,added⟩ := @JsSet.jsSetAdd_done _ _ known _ (some (keyOf memory a.sought)) refines.well narrow (refines.canGrow meets)
  have same := (addValue_eq refines.well sought).trans added
  obtain ⟨set,done,rfl⟩ := Option.map_eq_some_iff.mp same
  obtain ⟨well,live⟩ := JsSet.jsSetAdd_spec refines.well narrow (fun absent => (refines.canGrow meets absent).reclaimed) added
  have stored' : ∀ b ∈ set.elements,b = tagHole ∨ Stored memory b := by
    intro b member
    obtain before | rfl := mem_addValue refines.well sought done member
    · exact refines.stored b before
    · exact .inr stored
  refine ⟨⟨set,s.answers ++ [.done]⟩,?_,well,stored',?_,?_⟩
  · rw [step,perform,add_eq valid,done]
    rfl
  · rw [live_meaning stored',live,JsSet.normalizeZero,Option.getD_some,apply_ite (List.map _),List.map_append,List.map_singleton,
      stored.meaning,Argument.meaning_sought valid,← live_meaning refines.stored,refines.members]
    exact if_congr (mem_iff refines valid meets rfl) rfl rfl
  · rw [List.map_append,refines.answers]
    rfl

theorem Refines.has (refines : Refines memory s r) (valid : a.Valid memory) (meets : Meets memory s (.has a)) :
    ∃ t,step memory s (.has a) = some t ∧ Refines memory t (r.step memory (.has a)) := by
  have sought := sought_of refines valid meets rfl
  have found : JsSet.jsSetHas known (s.set.abstract memory) (some (keyOf memory a.sought)) = decide (a.meaning memory ∈ r.members) := by
    rw [Bool.eq_iff_iff,refines.well.jsSetHas_iff (meets.narrow_used),decide_eq_true_eq]
    exact mem_iff refines valid meets rfl
  refine ⟨⟨s.set,s.answers ++ [.flag (decide (a.meaning memory ∈ r.members))]⟩,?_,?_⟩
  · rw [step,perform,has_eq valid,hasValue_eq refines.well sought,found]
    rfl
  · exact refines.answered refines.well rfl fun b member => member

theorem Refines.delete (refines : Refines memory s r) (valid : a.Valid memory) (meets : Meets memory s (.delete a)) :
    ∃ t,step memory s (.delete a) = some t ∧ Refines memory t (r.step memory (.delete a)) := by
  have sought := sought_of refines valid meets rfl
  have stored := Argument.stored_sought valid fun number => (meets.number a rfl number).2
  obtain ⟨set,found,done,same,kept⟩ := jsSetDelete_eq refines.well sought
  have fits : JsSet.Fits known (s.set.abstract memory) (.delete (some (keyOf memory a.sought))) := by
    refine ⟨meets.narrow_used,fun there many few _ => ?_⟩
    rw [abstract_used] at many few
    exact meets.small _ (if_pos ⟨fun missing => refines.index_none.mp missing there,many,few⟩)
  obtain ⟨well,live,answer⟩ := JsSet.jsSetDelete_spec refines.well fits
  change (_,_) = JsSet.jsSetDelete known _ (some (keyOf memory a.sought)) at same
  rw [← same] at well live answer
  have stored' : ∀ b ∈ set.elements,b = tagHole ∨ Stored memory b := by
    intro b member
    obtain before | rfl := kept b member
    · exact refines.stored b before
    · exact .inl rfl
  have flag : found = decide (a.meaning memory ∈ r.members) := by
    rw [Bool.eq_iff_iff,answer,decide_eq_true_eq]
    exact mem_iff refines valid meets rfl
  refine ⟨⟨set,s.answers ++ [.flag found]⟩,?_,well,stored',?_,?_⟩
  · rw [step,perform,delete_eq,done]
    rfl
  · rw [live_meaning stored',live,abstract_live,JsSet.normalizeZero,Option.getD_some]
    refine (map_erase s.set.live (fun b member => key_iff refines valid meets rfl member) fun b member => ?_).trans ?_
    · exact (refines.live member).meaning
    · rw [refines.members]
      rfl
  · rw [List.map_append,refines.answers,flag]
    rfl

theorem Refines.clear (refines : Refines memory s r) :
    ∃ t,step memory s .clear = some t ∧ Refines memory t (r.step memory .clear) := by
  obtain ⟨well,live⟩ := JsSet.jsSetClear_spec refines.well
  rw [← abstract_clear] at well live
  have stored' : ∀ b ∈ (jsSetClear s.set).elements,b = tagHole ∨ Stored memory b := by
    intro b member
    obtain before | rfl := mem_clear member
    · exact refines.stored b before
    · exact .inl rfl
  refine ⟨⟨jsSetClear s.set,s.answers ++ [.done]⟩,rfl,well,stored',?_,?_⟩
  · rw [live_meaning stored',live]
    rfl
  · rw [List.map_append,refines.answers]
    rfl

/-- A set that is squeezed where the index can be rebuilt. -/
theorem Refines.squeezes (refines : Refines memory s r) (small : s.set.used ≠ s.set.size → s.set.size ≤ 16000000) :
    ((compactIfHoleySet memory s.set).abstract memory).WellFormed ∧
      ((compactIfHoleySet memory s.set).abstract memory).live = (s.set.abstract memory).live := by
  rw [abstract_compactIfHoley]
  have can : JsSet.CanSqueeze (s.set.abstract memory) := fun holey => small (abstract_used memory s.set ▸ holey)
  exact ⟨JsSet.compactIfHoleySet_wellFormed refines.well can,JsSet.compactIfHoleySet_live⟩

theorem Refines.valueAt (refines : Refines memory s r) {index : Nat} (meets : Meets memory s (.valueAt index)) :
    ∃ t,step memory s (.valueAt index) = some t ∧ Refines memory t (r.step memory (.valueAt index)) := by
  obtain ⟨value,laid⟩ := jsSetValueAt_eq refines.well index
  have answer : (Answer.value (jsSetValueAt memory s.set index).2).map (meaning memory) =
      .value (r.members[index]?.getD .undefined) := by
    rw [value,← refines.members,List.getElem?_map,Answer.map]
    cases s.set.live[index]? <;> rfl
  refine ⟨⟨(jsSetValueAt memory s.set index).1,s.answers ++ [.value (jsSetValueAt memory s.set index).2]⟩,rfl,?_⟩
  rw [Reference.step,← answer]
  obtain same | ⟨inside,same⟩ := laid
  · rw [same]
    exact refines.answered refines.well rfl fun b member => member
  · obtain ⟨well,live⟩ := refines.squeezes fun holey => meets.small _ (if_pos ⟨inside,holey⟩)
    rw [same]
    exact refines.answered well live fun b => mem_compactIfHoley

theorem Refines.toArray (refines : Refines memory s r) (meets : Meets memory s .toArray) :
    ∃ t,step memory s .toArray = some t ∧ Refines memory t (r.step memory .toArray) := by
  have array := jsSetToArray_eq refines.well
  have answer : (Answer.values (jsSetToArray memory s.set).2).map (meaning memory) = .values r.members := by
    rw [array,Answer.map,refines.members]
  refine ⟨⟨(jsSetToArray memory s.set).1,s.answers ++ [.values (jsSetToArray memory s.set).2]⟩,rfl,?_⟩
  rw [Reference.step,← answer,array]
  obtain ⟨well,live⟩ := refines.squeezes fun holey => meets.small _ (if_pos holey)
  exact refines.answered well live fun b => mem_compactIfHoley

/-- An operation that meets the condition is answered as the list answers it. -/
theorem refines_step (refines : Refines memory s r) (valid : op.Valid memory) (meets : Meets memory s op) :
    ∃ t,step memory s op = some t ∧ Refines memory t (r.step memory op) := by
  cases op with
  | add a => exact refines.add valid meets
  | has a => exact refines.has valid meets
  | delete a => exact refines.delete valid meets
  | clear => exact refines.clear
  | valueAt index => exact refines.valueAt meets
  | toArray => exact refines.toArray meets

end refinement

/-- A set whose operations all meet the condition is the list of its distinct values in the order in
which they have been added. -/
theorem set_agrees (memory : Memory) (capacity : BitVec 32) (ops : List Op) (valid : ∀ op ∈ ops,op.Valid memory)
    (met : Throughout (step memory) (Meets memory) (start capacity) ops) :
    ∃ s,Runs (step memory) (start capacity) ops s ∧ Agrees memory s (reference memory ops) := by
  have forward : ∀ {s r op},Refines memory s r → Op.Valid memory op → Meets memory s op →
      ∃ t,step memory s op = some t ∧ Refines memory t (r.step memory op) := refines_step
  obtain ⟨s,run,refines⟩ := Throughout.simulates forward met valid (Refines.start memory capacity)
  exact ⟨s,run,refines.agrees⟩

/-- A memory for tests: a string of one letter wherever one looks. -/
def demoMemory : Memory := ⟨fun _ => some gcTypeString,fun _ => [0x61],fun _ => false,fun _ => 1⟩

/-- The string of one letter within the value. -/
def shortLetter : Bits := boxed shortStringTag (2 ^ 40 + 0x61)

/-- A string is found by its content, however it is written. -/
theorem set_agrees_strings : ∃ s,
    Runs (step demoMemory) (start 0) [.add (.string 0x200000),.has (.value shortLetter),.toArray] s ∧
      s.answers.map (Answer.map (meaning demoMemory)) = [.done,.flag true,.values [.string [0x61]]] := by
  have valid : ∀ op ∈ [Op.add (.string 0x200000),.has (.value shortLetter),.toArray],op.Valid demoMemory := by
    rw [List.forall_mem_cons,List.forall_mem_cons,List.forall_mem_singleton]
    exact ⟨⟨by decide,by decide⟩,.shortString (by decide) (by decide),trivial⟩
  have string {a b : Bits} {letters : List UInt8} (means : meaning demoMemory b = .string letters) : ¬ Clash demoMemory a b := by
    rintro (⟨-,x,-,other⟩ | ⟨-,n,-,other⟩) <;> rw [means] at other <;> cases other
  have met : Throughout (step demoMemory) (Meets demoMemory) (start 0) [.add (.string 0x200000),.has (.value shortLetter),.toArray] := by
    refine ⟨⟨?_,?_,?_,by decide⟩,fun t taken => ?_⟩
    · rintro a ⟨⟩ b -
      exact string (show _ = Meaning.string [0x61] from rfl)
    · rintro a ⟨⟩ number
      cases number
    · rintro left ⟨⟩
    · obtain rfl := Option.some.inj taken
      refine ⟨⟨?_,?_,?_,by decide⟩,fun t taken => ?_⟩
      · rintro a ⟨⟩ b -
        exact string (show _ = Meaning.string [0x61] from rfl)
      · rintro a ⟨⟩ number
        cases number
      · rintro left ⟨⟩
      · obtain rfl := Option.some.inj taken
        refine ⟨⟨?_,?_,?_,by decide⟩,fun t taken => trivial⟩
        · rintro a ⟨⟩
        · rintro a ⟨⟩
        · rintro left ⟨⟩
  obtain ⟨s,run,agrees⟩ := set_agrees demoMemory 0 _ valid met
  exact ⟨s,run,agrees.answers.trans (by decide)⟩

/-- An integer is tagged, and is not found as a double. -/
theorem integer_missed : ∃ s,
    Runs (step demoMemory) (start 0) [.add (.i32 0),.has (.value (Binary64.zero false))] s ∧
      (∀ op ∈ [Op.add (.i32 0),.has (.value (Binary64.zero false))],op.Valid demoMemory) ∧
      ¬ Agrees demoMemory s (reference demoMemory [.add (.i32 0),.has (.value (Binary64.zero false))]) := by
  have run : Runs (step demoMemory) (start 0) [.add (.i32 0),.has (.value (Binary64.zero false))] _ := .cons rfl (.cons rfl (.nil _))
  refine ⟨_,run,?_,fun agrees => ?_⟩
  · rw [List.forall_mem_cons,List.forall_mem_singleton]
    exact ⟨trivial,.number rfl⟩
  · have zero : meaning demoMemory (Binary64.zero false) = .number (.finite ((0 : BitVec 32).toInt : ℚ)) := by
      rw [meaning_number rfl,numeric_zero]
      simp
    have expected : (reference demoMemory [.add (.i32 0),.has (.value (Binary64.zero false))]).answers = [.done,.flag true] := by
      simp [reference,Reference.step,Argument.meaning,zero]
    have answers := agrees.answers
    rw [expected] at answers
    cases answers

end Perry.Runtime.BoxedSet
