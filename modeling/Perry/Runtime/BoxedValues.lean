import Perry.Words.Binary64

/-! Boxed values as the elements of a `Set`: what the comparison and the hash of the side index see
of them, and the value of the language that each stands for. -/
namespace Perry.Runtime.BoxedSet

open Words

abbrev Bits := BitVec 64

/-- `bits >> 48` -/
def upper (bits : Bits) : Nat := bits.toNat / 2 ^ 48

/-- `bits & 0x0000_FFFF_FFFF_FFFF` -/
def payload (bits : Bits) : Nat := bits.toNat % 2 ^ 48

/-! The tags, as the upper sixteen bits. -/

def shortStringTag : Nat := 0x7FF9
def bigintTag : Nat := 0x7FFA
def pointerTag : Nat := 0x7FFD
def int32Tag : Nat := 0x7FFE
def stringTag : Nat := 0x7FFF

def boxed (tag payload : Nat) : Bits := BitVec.ofNat 64 (tag * 2 ^ 48 + payload)

def tagUndefined : Bits := boxed 0x7FFC 1
def tagNull : Bits := boxed 0x7FFC 2
def tagFalse : Bits := boxed 0x7FFC 3
def tagTrue : Bits := boxed 0x7FFC 4
def tagHole : Bits := boxed 0x7FFC 0x10

def handleBandMax : Nat := 0x100000

def gcTypeString : Nat := 3

/-- What is found at an address: the type in the header in front of it, if a header can be read
there, the bytes of a string, whether it is a symbol, and the number of a bigint. -/
structure Memory where
  objType : Nat → Option Nat
  bytes : Nat → List UInt8
  symbol : Nat → Bool
  bigint : Nat → Int

def isNumber (bits : Bits) : Bool := !(shortStringTag ≤ upper bits && upper bits ≤ stringTag)

def isInt32 (bits : Bits) : Bool := bits.toNat / 2 ^ 32 = int32Tag * 2 ^ 16

def asInt32 (bits : Bits) : BitVec 32 := bits.setWidth 32

theorem natAbs_toInt_lt (n : BitVec 32) : n.toInt.natAbs < 2 ^ 53 := by
  have low := BitVec.le_toInt n
  have high := @BitVec.toInt_lt 32 n
  omega

theorem toNat_lt (n : BitVec 32) : n.toNat < 2 ^ 53 := n.isLt.trans (by decide)

/-- `n as f64` for an `i32` -/
def ofI32 (n : BitVec 32) : Bits := Binary64.toBits (.finite (.whole n.msb n.toInt.natAbs (natAbs_toInt_lt n)))

/-- `f64::from(n)` for a `u32` -/
def ofU32 (n : BitVec 32) : Bits := Binary64.toBits (.finite (.whole false n.toNat (toNat_lt n)))

def isZero : Binary64 → Bool
  | .finite d => d.mantissa = 0
  | _ => false

def isNan : Binary64 → Bool
  | .nan => true
  | _ => false

def normalizeZero (value : Bits) : Bits :=
  if value = tagHole then tagUndefined
  else if isZero (.fromBits value) then Binary64.zero false
  else if isNan (.fromBits value) && isNumber value then Binary64.toBits .nan
  else value

def normalizeNumberValueFromBoxed (value : Bits) : Option Bits :=
  if isInt32 value then some (normalizeZero (ofI32 (asInt32 value)))
  else if isNumber value then some (normalizeZero value)
  else none

/-- Not all twelve bits of the quiet NaN prefix are set, and some bit but the sign is. -/
def isPlainNonzeroNumberBits (bits : Bits) : Bool :=
  bits.toNat / 2 ^ 51 % 2 ^ 12 ≠ 2 ^ 12 - 1 && bits.toNat % 2 ^ 63 ≠ 0

/-- Null is zero. -/
def extractStringPtrFromValue (bits : Bits) : Nat :=
  if upper bits = stringTag then payload bits
  else if upper bits = pointerTag then payload bits
  else if upper bits = 0 ∧ 0x10000 < payload bits then payload bits
  else 0

def shortStringLen (bits : Bits) : Nat := payload bits / 2 ^ 40

def shortStringBytes (bits : Bits) : List UInt8 :=
  (List.range (shortStringLen bits)).map fun i => UInt8.ofNat (payload bits % 2 ^ 40 / 2 ^ (i * 8))

section memory

variable (memory : Memory)

def stringViewFromBits (bits : Bits) : Option (List UInt8) :=
  if upper bits = shortStringTag then some (shortStringBytes bits)
  else if extractStringPtrFromValue bits < 0x1000 then none
  else some (memory.bytes (extractStringPtrFromValue bits))

def isStringLike (bits : Bits) : Bool :=
  if upper bits = shortStringTag then true
  else if upper bits = stringTag then extractStringPtrFromValue bits ≠ 0
  else if extractStringPtrFromValue bits < handleBandMax then false
  else memory.objType (extractStringPtrFromValue bits) = some gcTypeString

/-- `is_string_like` reads no header, or one that is there. -/
def readable (bits : Bits) : Bool :=
  upper bits = shortStringTag || upper bits = stringTag || extractStringPtrFromValue bits < handleBandMax ||
    (memory.objType (extractStringPtrFromValue bits)).isSome

def jsIsSymbol (bits : Bits) : Bool := upper bits = pointerTag && memory.symbol (payload bits)

def jsvalueEq (a b : Bits) : Bool :=
  if a = b then true
  else if jsIsSymbol memory a || jsIsSymbol memory b then false
  else if isStringLike memory a && isStringLike memory b then
    match stringViewFromBits memory a,stringViewFromBits memory b with
    | some s,some t => s = t
    | _,_ => false
  else false

/-- A value as the side index knows it. -/
inductive Key where
  | content (bytes : List UInt8)
  | identity (bits : Bits)
  deriving DecidableEq

def keyOf (bits : Bits) : Key :=
  if jsIsSymbol memory bits then .identity bits
  else if isStringLike memory bits then
    match stringViewFromBits memory bits with
    | some s => .content s
    | none => .identity bits
  else .identity bits

variable {memory} {a b : Bits}

theorem keyOf_identity (same : keyOf memory a = .identity b) : a = b := by
  rw [keyOf] at same
  split at same
  · exact Key.identity.inj same
  · split at same
    · split at same
      · cases same
      · exact Key.identity.inj same
    · exact Key.identity.inj same

theorem keyOf_content {s : List UInt8} : keyOf memory a = .content s ↔
    jsIsSymbol memory a = false ∧ isStringLike memory a = true ∧ stringViewFromBits memory a = some s := by
  rw [keyOf]
  cases jsIsSymbol memory a <;> cases isStringLike memory a <;> cases stringViewFromBits memory a <;> simp

/-- `jsvalue_eq` is an equivalence: it compares keys. -/
theorem jsvalueEq_iff : jsvalueEq memory a b = true ↔ keyOf memory a = keyOf memory b := by
  by_cases same : a = b
  · rw [jsvalueEq,if_pos same,same]
    exact iff_of_true rfl rfl
  constructor
  · intro equal
    rw [jsvalueEq,if_neg same] at equal
    split at equal
    · cases equal
    · next symbols =>
      rw [Bool.or_eq_true,not_or,Bool.not_eq_true,Bool.not_eq_true] at symbols
      split at equal
      · next strings =>
        rw [Bool.and_eq_true] at strings
        split at equal
        · next s t first second =>
          rw [keyOf_content.mpr ⟨symbols.1,strings.1,first⟩,keyOf_content.mpr ⟨symbols.2,strings.2,second⟩,of_decide_eq_true equal]
        · cases equal
      · cases equal
  · intro keys
    cases shape : keyOf memory b with
    | identity c => exact absurd ((keyOf_identity (keys.trans shape)).trans (keyOf_identity shape).symm) same
    | content s =>
      obtain ⟨symbol,string,view⟩ := keyOf_content.mp (keys.trans shape)
      obtain ⟨symbol',string',view'⟩ := keyOf_content.mp shape
      rw [jsvalueEq,if_neg same,symbol,symbol',string,string',view,view']
      simp

end memory

/-- A number, zero being one of them and a NaN being another. -/
inductive Numeric where
  | nan
  | infinite (negative : Bool)
  | finite (value : ℚ)
  deriving DecidableEq

def numeric : Binary64 → Numeric
  | .nan => .nan
  | .infinite negative => .infinite negative
  | .finite d => .finite d.value

/-- A value of the language. Two of them are the same exactly when SameValueZero holds. -/
inductive Meaning where
  | undefined
  | null
  | boolean (b : Bool)
  | number (x : Numeric)
  | string (bytes : List UInt8)
  | bigint (n : Int)
  | object (address : Nat)
  deriving DecidableEq

def constants : List Bits := [tagUndefined,tagNull,tagFalse,tagTrue]

/-- The values of the language as they are boxed. An array hole is read as `undefined`. -/
inductive Valid (memory : Memory) (bits : Bits) : Prop
  | number (shape : isNumber bits = true)
  | int32 (shape : isInt32 bits = true)
  | bigint (shape : upper bits = bigintTag)
  | constant (shape : bits ∈ constants)
  | hole (shape : bits = tagHole)
  | shortString (shape : upper bits = shortStringTag) (short : shortStringLen bits ≤ 5)
  | string (shape : upper bits = stringTag) (placed : 0x1000 ≤ payload bits)
  | pointer (shape : upper bits = pointerTag) (placed : payload bits < handleBandMax ∨ (memory.objType (payload bits)).isSome)

/-- What the value stands for. -/
def meaning (memory : Memory) (bits : Bits) : Meaning :=
  if isNumber bits then .number (numeric (.fromBits bits))
  else if isInt32 bits then .number (.finite (asInt32 bits).toInt)
  else if upper bits = bigintTag then .bigint (memory.bigint (payload bits))
  else if upper bits = shortStringTag then .string (shortStringBytes bits)
  else if upper bits = stringTag then .string (memory.bytes (payload bits))
  else if upper bits = pointerTag then
    if isStringLike memory bits && !jsIsSymbol memory bits then .string (memory.bytes (payload bits)) else .object (payload bits)
  else if bits = tagNull then .null
  else if bits = tagFalse then .boolean false
  else if bits = tagTrue then .boolean true
  else .undefined

/-- Two numbers that are equal, one of them tagged as an integer, or a bigint that is allocated twice. -/
def Clash (memory : Memory) (a b : Bits) : Prop :=
  (isInt32 a ≠ isInt32 b ∧ ∃ x,meaning memory a = .number x ∧ meaning memory b = .number x) ∨
    (a ≠ b ∧ ∃ n,meaning memory a = .bigint n ∧ meaning memory b = .bigint n)

/-- A value other than a string stands for this, and is written as it is in a set. -/
def Denotes (memory : Memory) (bits : Bits) : Meaning → Prop
  | .undefined => bits = tagUndefined
  | .null => bits = tagNull
  | .boolean b => bits = if b then tagTrue else tagFalse
  | .number x => (isNumber bits = true ∧ numeric (.fromBits bits) = x ∧ normalizeZero bits = bits) ∨
      (isInt32 bits = true ∧ .finite (asInt32 bits).toInt = x)
  | .string _ => False
  | .bigint n => upper bits = bigintTag ∧ memory.bigint (payload bits) = n
  | .object address => upper bits = pointerTag ∧ payload bits = address

/-- A value as it is stored: the index knows it as what it stands for. -/
inductive Stored (memory : Memory) (bits : Bits) : Prop
  | string (s : List UInt8) (key : keyOf memory bits = .content s) (means : meaning memory bits = .string s)
  | other (key : keyOf memory bits = .identity bits) (means : Denotes memory bits (meaning memory bits))

def Key.meaning (memory : Memory) : Key → Meaning
  | .content s => .string s
  | .identity bits => BoxedSet.meaning memory bits

section meanings

variable {memory : Memory} {a b v : Bits}

theorem isNumber_iff : isNumber a = true ↔ upper a < 0x7FF9 ∨ 0x7FFF < upper a := by
  rw [isNumber,shortStringTag,stringTag,Bool.not_eq_true',Bool.and_eq_false_iff,decide_eq_false_iff_not,decide_eq_false_iff_not]
  omega

theorem upper_of_int32 (shape : isInt32 a = true) : upper a = int32Tag := by
  rw [isInt32,decide_eq_true_eq,int32Tag] at shape
  rw [upper,int32Tag]
  omega

theorem bits_eq (tags : upper a = upper b) (payloads : payload a = payload b) : a = b := by
  rw [upper,upper] at tags
  rw [payload,payload] at payloads
  exact BitVec.eq_of_toNat_eq (by omega)

theorem isNumber_of_finite {d : Double} (shape : Binary64.fromBits a = .finite d) : isNumber a = true := by
  obtain ⟨ordinary,-⟩ := Binary64.fromBits_finite shape
  rw [isNumber_iff,upper]
  rw [Binary64.exponentField] at ordinary
  have small := a.isLt
  omega

theorem isInt32_of_number (shape : isNumber a = true) : isInt32 a = false := by
  rw [isNumber_iff] at shape
  rw [Bool.eq_false_iff]
  intro int32
  have tag := upper_of_int32 int32
  rw [int32Tag] at tag
  omega

theorem asInt32_inj (shape : isInt32 a = true) (shape' : isInt32 b = true) (same : asInt32 a = asInt32 b) : a = b := by
  rw [isInt32,decide_eq_true_eq] at shape shape'
  have low := congrArg BitVec.toNat same
  rw [asInt32,asInt32,BitVec.toNat_setWidth,BitVec.toNat_setWidth] at low
  exact BitVec.eq_of_toNat_eq (by omega)

theorem value_eq_zero {d : Double} (shape : isZero (.finite d) = true) : d.value = 0 := by
  rw [isZero,decide_eq_true_eq] at shape
  rw [Double.value,Double.magnitude,shape]
  simp

theorem isZero_iff {d : Double} : isZero (.finite d) = true ↔ d.value = 0 := by
  refine ⟨value_eq_zero,fun zero => ?_⟩
  have size : d.magnitude = 0 := by
    rw [Double.value] at zero
    split at zero
    · exact neg_eq_zero.mp zero
    · exact zero
  rw [Double.magnitude,mul_eq_zero,or_iff_left (zpow_ne_zero _ two_ne_zero)] at size
  rw [isZero,decide_eq_true_eq]
  exact_mod_cast size

theorem ne_hole (shape : isNumber a = true) : a ≠ tagHole := by
  rintro rfl
  cases shape

theorem normalizeZero_nan (shape : isNumber a = true) (nan : Binary64.fromBits a = .nan) :
    normalizeZero a = Binary64.toBits .nan := by
  rw [normalizeZero,if_neg (ne_hole shape),nan,shape]
  rfl

theorem normalizeZero_infinite {negative : Bool} (shape : isNumber a = true) (infinite : Binary64.fromBits a = .infinite negative) :
    normalizeZero a = a := by
  rw [normalizeZero,if_neg (ne_hole shape),infinite]
  rfl

theorem normalizeZero_finite {d : Double} (finite : Binary64.fromBits a = .finite d) :
    normalizeZero a = if d.value = 0 then Binary64.zero false else a := by
  rw [normalizeZero,if_neg (ne_hole (isNumber_of_finite finite)),finite]
  by_cases zero : d.value = 0
  · rw [if_pos (isZero_iff.mpr zero),if_pos zero]
  · rw [if_neg (fun held => zero (isZero_iff.mp held)),if_neg zero]
    rfl

theorem normalizeZero_tagged (tagged : isNumber a = false) (solid : a ≠ tagHole) : normalizeZero a = a := by
  have infinite : isZero (.fromBits a) = false := by
    cases shape : Binary64.fromBits a with
    | finite d =>
      rw [isNumber_of_finite shape] at tagged
      cases tagged
    | nan => rfl
    | infinite => rfl
  rw [normalizeZero,if_neg solid,infinite,tagged,Bool.and_false]
  rfl

theorem fromBits_infinite {negative : Bool} (shape : Binary64.fromBits a = .infinite negative) :
    a.msb = negative ∧ Binary64.exponentField a = 2047 ∧ Binary64.fractionField a = 0 := by
  unfold Binary64.fromBits at shape
  split at shape
  · next special =>
    split at shape
    · next whole => exact ⟨Binary64.infinite.inj shape,special,whole⟩
    · cases shape
  · cases shape

/-- A number that is written one way is known by its value. -/
theorem numeric_inj (shape : isNumber a = true) (shape' : isNumber b = true) (normal : normalizeZero a = a)
    (normal' : normalizeZero b = b) (same : numeric (.fromBits a) = numeric (.fromBits b)) : a = b := by
  cases first : Binary64.fromBits a with
  | nan =>
    cases second : Binary64.fromBits b with
    | nan => rw [← normal,← normal',normalizeZero_nan shape first,normalizeZero_nan shape' second]
    | infinite => rw [first,second] at same; cases same
    | finite => rw [first,second] at same; cases same
  | infinite negative =>
    cases second : Binary64.fromBits b with
    | nan => rw [first,second] at same; cases same
    | infinite negative' =>
      rw [first,second] at same
      obtain ⟨sign,exponent,fraction⟩ := fromBits_infinite first
      obtain ⟨sign',exponent',fraction'⟩ := fromBits_infinite second
      refine Binary64.fields_ext ?_ (exponent.trans exponent'.symm) (fraction.trans fraction'.symm)
      exact sign.trans ((Numeric.infinite.inj same).trans sign'.symm)
    | finite => rw [first,second] at same; cases same
  | finite d =>
    cases second : Binary64.fromBits b with
    | nan => rw [first,second] at same; cases same
    | infinite => rw [first,second] at same; cases same
    | finite d' =>
      rw [first,second] at same
      have values : d.value = d'.value := Numeric.finite.inj same
      by_cases zero : d.value = 0
      · rw [← normal,← normal',normalizeZero_finite first,normalizeZero_finite second,if_pos zero,if_pos (values ▸ zero)]
      · exact Binary64.fromBits_value_inj first second values zero

/-- What two values other than strings stand for tells them apart, unless they clash. -/
theorem Denotes.unique (first : Denotes memory a (meaning memory a)) (second : Denotes memory b (meaning memory b))
    (same : meaning memory a = meaning memory b) (apart : ¬ Clash memory a b) : a = b := by
  rw [← same] at second
  cases means : meaning memory a with
  | undefined =>
    rw [means] at first second
    exact Eq.trans first (Eq.symm second)
  | null =>
    rw [means] at first second
    exact Eq.trans first (Eq.symm second)
  | boolean =>
    rw [means] at first second
    exact Eq.trans first (Eq.symm second)
  | string s =>
    rw [means] at first
    exact first.elim
  | bigint n =>
    by_contra differ
    exact apart (.inr ⟨differ,n,means,same ▸ means⟩)
  | object address =>
    rw [means] at first second
    exact bits_eq (first.1.trans second.1.symm) (first.2.trans second.2.symm)
  | number x =>
    have tags : isInt32 a = isInt32 b := by
      by_contra differ
      exact apart (.inl ⟨differ,x,means,same ▸ means⟩)
    rw [means] at first second
    obtain ⟨number,value,normal⟩ | ⟨int32,value⟩ := first
    · obtain ⟨number',value',normal'⟩ | ⟨int32,-⟩ := second
      · exact numeric_inj number number' normal normal' (value.trans value'.symm)
      · rw [isInt32_of_number number,int32] at tags
        cases tags
    · obtain ⟨number,-⟩ | ⟨int32',value'⟩ := second
      · rw [isInt32_of_number number,int32] at tags
        cases tags
      · have integers := Numeric.finite.inj (value.trans value'.symm)
        exact asInt32_inj int32 int32' (BitVec.eq_of_toInt_eq (by exact_mod_cast integers))

theorem Stored.meaning (stored : Stored memory v) : (keyOf memory v).meaning memory = meaning memory v := by
  obtain ⟨s,key,means⟩ | ⟨key,-⟩ := stored
  · rw [key,means,Key.meaning]
  · rw [key,Key.meaning]

theorem Stored.key_iff (first : Stored memory a) (second : Stored memory b) (apart : ¬ Clash memory a b) :
    keyOf memory a = keyOf memory b ↔ BoxedSet.meaning memory a = BoxedSet.meaning memory b := by
  constructor
  · intro keys
    rw [← first.meaning,← second.meaning,keys]
  · intro same
    obtain ⟨s,key,means⟩ | ⟨key,means⟩ := first
    · obtain ⟨t,key',means'⟩ | ⟨-,means'⟩ := second
      · rw [key,key',Meaning.string.inj (means.symm.trans (same.trans means'))]
      · rw [← same,means] at means'
        exact means'.elim
    · obtain ⟨t,-,means'⟩ | ⟨key',means'⟩ := second
      · rw [same,means'] at means
        exact means.elim
      · rw [means.unique means' same apart]

theorem keyOf_eq_identity (symbol : upper v ≠ pointerTag) (plain : isStringLike memory v = false) :
    keyOf memory v = .identity v := by
  have none : jsIsSymbol memory v = false := by
    rw [jsIsSymbol,decide_eq_false symbol,Bool.false_and]
  rw [keyOf,none,plain]
  rfl

theorem extract_tagged (tagged : upper v ≠ 0) (string : upper v ≠ stringTag) (pointer : upper v ≠ pointerTag) :
    extractStringPtrFromValue v = 0 := by
  rw [extractStringPtrFromValue,if_neg string,if_neg pointer,if_neg fun raw => tagged raw.1]

/-- A tag other than those of strings and pointers is enough to see that a value is no string. -/
theorem isStringLike_tagged (tagged : upper v ≠ 0) (short : upper v ≠ shortStringTag) (string : upper v ≠ stringTag)
    (pointer : upper v ≠ pointerTag) : isStringLike memory v = false := by
  rw [isStringLike,if_neg short,if_neg string,extract_tagged tagged string pointer]
  rfl

theorem isNumber_normalizeZero (shape : isNumber v = true) : isNumber (normalizeZero v) = true := by
  cases value : Binary64.fromBits v with
  | nan =>
    rw [normalizeZero_nan shape value]
    rfl
  | infinite =>
    rw [normalizeZero_infinite shape value]
    exact shape
  | finite d =>
    rw [normalizeZero_finite value]
    split
    · rfl
    · exact shape

theorem normalizeZero_normalizeZero (shape : isNumber v = true) : normalizeZero (normalizeZero v) = normalizeZero v := by
  cases value : Binary64.fromBits v with
  | nan =>
    rw [normalizeZero_nan shape value]
    rfl
  | infinite =>
    rw [normalizeZero_infinite shape value,normalizeZero_infinite shape value]
  | finite d =>
    rw [normalizeZero_finite value]
    split
    · rfl
    · next some => rw [normalizeZero_finite value,if_neg some]

theorem isNumber_tagged {tag : Nat} (tagged : upper v = tag) (low : 0x7FF9 ≤ tag) (high : tag ≤ 0x7FFF) : isNumber v = false := by
  rw [Bool.eq_false_iff,Ne,isNumber_iff]
  omega

theorem normalizeZero_tag {tag : Nat} (tagged : upper v = tag) (low : 0x7FF9 ≤ tag) (high : tag ≤ 0x7FFF) (other : tag ≠ 0x7FFC) :
    normalizeZero v = v := by
  refine normalizeZero_tagged (isNumber_tagged tagged low high) ?_
  rintro rfl
  exact other tagged.symm

/-- A tag of its own, which is neither one of a string nor one of a pointer. -/
theorem keyOf_tag {tag : Nat} (tagged : upper v = tag) (tag_other : tag ≠ 0 ∧ tag ≠ shortStringTag ∧ tag ≠ stringTag ∧ tag ≠ pointerTag) :
    keyOf memory v = .identity v := by
  obtain ⟨raw,short,string,pointer⟩ := tag_other
  rw [← tagged] at raw short string pointer
  exact keyOf_eq_identity pointer (isStringLike_tagged raw short string pointer)

theorem isInt32_tagged {tag : Nat} (tagged : upper v = tag) (other : tag ≠ int32Tag) : isInt32 v = false := by
  rw [Bool.eq_false_iff]
  exact fun int32 => other (tagged.symm.trans (upper_of_int32 int32))

theorem stored_number (shape : isNumber v = true) (normal : normalizeZero v = v) (plain : isStringLike memory v = false) :
    Stored memory v := by
  refine .other (keyOf_eq_identity ?_ plain) ?_
  · rw [isNumber_iff] at shape
    rw [pointerTag]
    omega
  · rw [meaning,if_pos shape]
    exact .inl ⟨shape,rfl,normal⟩

theorem stored_int32 (shape : isInt32 v = true) : Stored memory v := by
  have tagged := upper_of_int32 shape
  refine .other (keyOf_tag tagged (by decide)) ?_
  rw [meaning,isNumber_tagged tagged (by decide) (by decide),shape]
  exact .inr ⟨shape,rfl⟩

theorem stored_bigint (tagged : upper v = bigintTag) : Stored memory v := by
  refine .other (keyOf_tag tagged (by decide)) ?_
  rw [meaning,isNumber_tagged tagged (by decide) (by decide),isInt32_tagged tagged (by decide),if_pos tagged]
  exact ⟨tagged,rfl⟩

theorem stored_constant (shape : v ∈ constants) : Stored memory v := by
  simp only [constants,List.mem_cons,List.not_mem_nil,or_false] at shape
  obtain rfl | rfl | rfl | rfl := shape <;> exact .other rfl rfl

theorem not_symbol (other : upper v ≠ pointerTag) : jsIsSymbol memory v = false := by
  rw [jsIsSymbol,decide_eq_false other,Bool.false_and]

theorem stored_shortString (tagged : upper v = shortStringTag) : Stored memory v := by
  refine .string (shortStringBytes v) (keyOf_content.mpr ⟨not_symbol (by rw [tagged]; decide),?_,?_⟩) ?_
  · rw [isStringLike,if_pos tagged]
  · rw [stringViewFromBits,if_pos tagged]
  · rw [meaning,isNumber_tagged tagged (by decide) (by decide),isInt32_tagged tagged (by decide),if_neg Bool.false_ne_true,
      if_neg Bool.false_ne_true,if_neg (by rw [tagged]; decide),if_pos tagged]

theorem stored_string (tagged : upper v = stringTag) (placed : 0x1000 ≤ payload v) : Stored memory v := by
  have address : extractStringPtrFromValue v = payload v := by
    rw [extractStringPtrFromValue,if_pos tagged]
  have other : upper v ≠ shortStringTag := by
    rw [tagged]
    decide
  refine .string (memory.bytes (payload v)) (keyOf_content.mpr ⟨not_symbol (by rw [tagged]; decide),?_,?_⟩) ?_
  · rw [isStringLike,if_neg other,if_pos tagged,address,decide_eq_true_eq]
    omega
  · rw [stringViewFromBits,if_neg other,address,if_neg (by omega)]
  · rw [meaning,isNumber_tagged tagged (by decide) (by decide),isInt32_tagged tagged (by decide),if_neg Bool.false_ne_true,
      if_neg Bool.false_ne_true,if_neg (by rw [tagged]; decide),if_neg other,if_pos tagged]

theorem meaning_pointer (tagged : upper v = pointerTag) : meaning memory v =
    if isStringLike memory v && !jsIsSymbol memory v then .string (memory.bytes (payload v)) else .object (payload v) := by
  rw [meaning,isNumber_tagged tagged (by decide) (by decide),isInt32_tagged tagged (by decide),if_neg Bool.false_ne_true,
    if_neg Bool.false_ne_true,if_neg (by rw [tagged]; decide),if_neg (by rw [tagged]; decide),if_neg (by rw [tagged]; decide),
    if_pos tagged]

/-- A pointer is a string where the header says so, and the reference of an object elsewhere. -/
theorem stored_pointer (tagged : upper v = pointerTag) : Stored memory v := by
  have address : extractStringPtrFromValue v = payload v := by
    rw [extractStringPtrFromValue,if_neg (by rw [tagged]; decide),if_pos tagged]
  have means : meaning memory v = _ := meaning_pointer tagged
  by_cases symbol : jsIsSymbol memory v = true
  · rw [symbol,Bool.not_true,Bool.and_false] at means
    refine .other ?_ ?_
    · rw [keyOf,if_pos symbol]
    · rw [means]
      exact ⟨tagged,rfl⟩
  · rw [Bool.not_eq_true] at symbol
    by_cases string : isStringLike memory v = true
    · rw [symbol,string] at means
      refine .string _ (keyOf_content.mpr ⟨symbol,string,?_⟩) means
      rw [isStringLike,if_neg (by rw [tagged]; decide),if_neg (by rw [tagged]; decide),address] at string
      rw [stringViewFromBits,if_neg (by rw [tagged]; decide),address]
      split at string
      · cases string
      · next above =>
        rw [handleBandMax] at above
        rw [if_neg (by omega)]
    · rw [Bool.not_eq_true] at string
      rw [symbol,string] at means
      refine .other ?_ ?_
      · rw [keyOf,symbol,string]
        rfl
      · rw [means]
        exact ⟨tagged,rfl⟩

/-- A valid value is normalised to one that is stored, unless it is a number that is taken for the
address of a string. -/
theorem stored_normalizeZero (valid : Valid memory v)
    (number : isNumber (normalizeZero v) = true → isStringLike memory (normalizeZero v) = false) :
    Stored memory (normalizeZero v) := by
  obtain shape | shape | shape | shape | shape | ⟨shape,-⟩ | ⟨shape,placed⟩ | ⟨shape,-⟩ := valid
  · exact stored_number (isNumber_normalizeZero shape) (normalizeZero_normalizeZero shape) (number (isNumber_normalizeZero shape))
  · rw [normalizeZero_tag (upper_of_int32 shape) (by decide) (by decide) (by decide)]
    exact stored_int32 shape
  · rw [normalizeZero_tag shape (by decide) (by decide) (by decide)]
    exact stored_bigint shape
  · simp only [constants,List.mem_cons,List.not_mem_nil,or_false] at shape
    obtain rfl | rfl | rfl | rfl := shape <;> exact stored_constant (by decide)
  · rw [shape]
    exact stored_constant (by decide)
  · rw [normalizeZero_tag shape (by decide) (by decide) (by decide)]
    exact stored_shortString shape
  · rw [normalizeZero_tag shape (by decide) (by decide) (by decide)]
    exact stored_string shape placed
  · rw [normalizeZero_tag shape (by decide) (by decide) (by decide)]
    exact stored_pointer shape

theorem readable_of_extract (low : extractStringPtrFromValue v < handleBandMax) : readable memory v = true := by
  rw [readable,decide_eq_true low,Bool.or_true,Bool.true_or]

theorem readable_tag {tag : Nat} (tagged : upper v = tag) (other : tag ≠ 0 ∧ tag ≠ stringTag ∧ tag ≠ pointerTag) :
    readable memory v = true := by
  obtain ⟨raw,string,pointer⟩ := other
  rw [← tagged] at raw string pointer
  refine readable_of_extract ?_
  rw [extract_tagged raw string pointer]
  decide

theorem readable_pointer (tagged : upper v = pointerTag)
    (placed : payload v < handleBandMax ∨ (memory.objType (payload v)).isSome = true) : readable memory v = true := by
  have address : extractStringPtrFromValue v = payload v := by
    rw [extractStringPtrFromValue,if_neg (by rw [tagged]; decide),if_pos tagged]
  obtain low | header := placed
  · exact readable_of_extract (address ▸ low)
  · rw [readable,address,header,Bool.or_true]

/-- The hash of a valid value is computed from memory that is there, unless it is a number that is
taken for an address. -/
theorem readable_normalizeZero (valid : Valid memory v)
    (number : isNumber (normalizeZero v) = true → readable memory (normalizeZero v) = true) :
    readable memory (normalizeZero v) = true := by
  obtain shape | shape | shape | shape | shape | ⟨shape,-⟩ | ⟨shape,-⟩ | ⟨shape,placed⟩ := valid
  · exact number (isNumber_normalizeZero shape)
  · rw [normalizeZero_tag (upper_of_int32 shape) (by decide) (by decide) (by decide)]
    exact readable_tag (upper_of_int32 shape) (by decide)
  · rw [normalizeZero_tag shape (by decide) (by decide) (by decide)]
    exact readable_tag shape (by decide)
  · simp only [constants,List.mem_cons,List.not_mem_nil,or_false] at shape
    obtain rfl | rfl | rfl | rfl := shape <;> rfl
  · rw [shape]
    rfl
  · rw [normalizeZero_tag shape (by decide) (by decide) (by decide)]
    exact readable_tag shape (by decide)
  · rw [normalizeZero_tag shape (by decide) (by decide) (by decide),readable,decide_eq_true shape,Bool.or_true]
    rfl
  · rw [normalizeZero_tag shape (by decide) (by decide) (by decide)]
    exact readable_pointer shape placed

end meanings

end Perry.Runtime.BoxedSet
