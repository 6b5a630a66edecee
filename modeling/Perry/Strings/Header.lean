import Perry.Unicode.Points

/-! Heap strings: bytes in WTF-8 under a header that records their length in code units and whether
a lone surrogate is among them. The walks over the bytes go from lead byte to lead byte. -/
namespace Perry.Strings

open Unicode

def stringFlagHasLoneSurrogates : UInt32 := 1

structure StringHeader where
  utf16Len : Nat
  flags : UInt32
  bytes : List UInt8
  deriving DecidableEq,Repr

structure Wtf8Step where
  advance : Nat
  units : Nat
  codePoint : Nat
  deriving DecidableEq,Repr

/-- The sequence at a lead byte; a byte that is missing at the end reads as zero. -/
def wtf8Step (b : UInt8) (rest : List UInt8) : Wtf8Step :=
  if b.toNat < 0x80 then ⟨1,1,b.toNat⟩
  else if b.toNat < 0xC0 then ⟨1,0,0xFFFD⟩
  else
    let b₁ := (rest.getD 0 0).toNat
    if b.toNat < 0xE0 then ⟨2,1,b.toNat % 32 * 64 + b₁ % 64⟩
    else
      let b₂ := (rest.getD 1 0).toNat
      if b.toNat < 0xF0 then ⟨3,1,b.toNat % 16 * 4096 + b₁ % 64 * 64 + b₂ % 64⟩
      else
        let b₃ := (rest.getD 2 0).toNat
        ⟨4,2,b.toNat % 8 * 262144 + b₁ % 64 * 4096 + b₂ % 64 * 64 + b₃ % 64⟩

/-- The steps of a walk from the byte on where the next sequence starts. -/
def wtf8StepsAfter : Nat → List UInt8 → List Wtf8Step
  | _,[] => []
  | 0,b :: rest => wtf8Step b rest :: wtf8StepsAfter ((wtf8Step b rest).advance - 1) rest
  | skip + 1,_ :: rest => wtf8StepsAfter skip rest

def wtf8Steps (bytes : List UInt8) : List Wtf8Step := wtf8StepsAfter 0 bytes

def allAscii (bytes : List UInt8) : Bool := bytes.all (·.toNat < 0x80)

def computeUtf16LenWtf8After : Nat → List UInt8 → Nat
  | _,[] => 0
  | 0,b :: rest =>
    if b.toNat < 0x80 then 1 + computeUtf16LenWtf8After 0 rest
    else if b.toNat < 0xC0 then computeUtf16LenWtf8After 0 rest
    else if b.toNat < 0xE0 then 1 + computeUtf16LenWtf8After 1 rest
    else if b.toNat < 0xF0 then 1 + computeUtf16LenWtf8After 2 rest
    else 2 + computeUtf16LenWtf8After 3 rest
  | skip + 1,_ :: rest => computeUtf16LenWtf8After skip rest

def computeUtf16LenWtf8 (bytes : List UInt8) : Nat := computeUtf16LenWtf8After 0 bytes

def computeUtf16Len (bytes : List UInt8) : Nat :=
  if allAscii bytes then bytes.length
  else match fromUtf8 bytes with
    | some points => (units points).length
    | none => computeUtf16LenWtf8 bytes

def offsetWalk (len utf16Idx : Nat) : Nat → Nat → List Wtf8Step → Nat
  | byteOff,_,[] => byteOff
  | byteOff,u16Count,step :: steps =>
    if utf16Idx ≤ u16Count then byteOff
    else offsetWalk len utf16Idx (min (byteOff + step.advance) len) (u16Count + step.units) steps

def utf16OffsetToByteOffset (bytes : List UInt8) (utf16Idx : Nat) : Nat :=
  if utf16Idx = 0 then 0 else offsetWalk bytes.length utf16Idx 0 0 (wtf8Steps bytes)

def byteOffsetToUtf16Index (bytes : List UInt8) (byteOff : Nat) : Nat :=
  if byteOff = 0 then 0
  else
    let front := bytes.take (min byteOff bytes.length)
    if allAscii front then front.length else ((wtf8Steps front).map Wtf8Step.units).sum

def bytesHaveLoneSurrogate : List UInt8 → Bool
  | b :: b₁ :: b₂ :: rest =>
    b.toNat = 0xED && (0xA0 ≤ b₁.toNat && b₁.toNat ≤ 0xBF) && (0x80 ≤ b₂.toNat && b₂.toNat ≤ 0xBF) ||
      bytesHaveLoneSurrogate (b₁ :: b₂ :: rest)
  | _ => false

/-- As many units as bytes: every unit is one byte. -/
def isAsciiString (s : StringHeader) : Bool := s.utf16Len = s.bytes.length

def hasLoneSurrogates (s : StringHeader) : Bool := s.flags &&& stringFlagHasLoneSurrogates ≠ 0

def jsStringFromBytes (bytes : List UInt8) : StringHeader := ⟨computeUtf16Len bytes,0,bytes⟩

def jsStringFromWtf8Bytes (bytes : List UInt8) : StringHeader :=
  ⟨computeUtf16LenWtf8 bytes,stringFlagHasLoneSurrogates,bytes⟩

def stringCopyRange (s : StringHeader) (byteStart byteLen utf16Len : Nat) (flags : UInt32) : StringHeader :=
  ⟨utf16Len,flags,(s.bytes.drop byteStart).take byteLen⟩

/-- The header tells the truth about the bytes. -/
structure Truthful (s : StringHeader) : Prop where
  length : s.utf16Len = computeUtf16Len s.bytes
  flag : hasLoneSurrogates s = bytesHaveLoneSurrogate s.bytes

/-- The code points of well-formed WTF-8: a high and a low surrogate side by side are one point. -/
structure Text where
  points : List Nat
  bounded : Bounded points
  joined : points.IsChain fun c d => ¬ (isHigh c = true ∧ isLow d = true)

def Text.empty : Text := ⟨[],by decide,.nil⟩

def maxStringLength : Nat := 536870888

namespace Text

variable (t : Text)

def bytes : List UInt8 := wtf8 t.points

def units : List Nat := Unicode.units t.points

/-- The string as it is stored. -/
def header : StringHeader :=
  ⟨t.units.length,if t.points.any isSurrogate then stringFlagHasLoneSurrogates else 0,t.bytes⟩

end Text

/-- A text that is not longer than a string may be. -/
structure JsString extends Text where
  short : (units points).length ≤ maxStringLength

def grinning : JsString := ⟨⟨[0x1F600],by decide,by decide⟩,by decide⟩

def loneHigh : JsString := ⟨⟨[0xD83D],by decide,by decide⟩,by decide⟩

/-- `as i32` -/
def asI32 (n : Nat) : Int := Int.bmod n (2 ^ 32)

theorem asI32_of_lt {n : Nat} (small : n < 2 ^ 31) : asI32 n = n := by
  have bound : (n : Int) < 2 ^ 31 := by exact_mod_cast small
  apply Int.bmod_eq_of_le
  · norm_num
  · norm_num
    omega

section steps

variable {points front back : List Nat} {c : Nat}

/-- The step over a code point. -/
def stepOf (c : Nat) : Wtf8Step := ⟨(encodeUtf8 c).length,(unitsOf c).length,c⟩

theorem wtf8StepsAfter_append (front back : List UInt8) : wtf8StepsAfter front.length (front ++ back) = wtf8Steps back := by
  induction front with
  | nil => rfl
  | cons b front ih => exact ih

theorem wtf8Step_encodeUtf8 (small : c < 0x110000) (rest : List UInt8) :
    ∃ lead conts,encodeUtf8 c = lead :: conts ∧ wtf8Step lead (conts ++ rest) = stepOf c := by
  unfold stepOf encodeUtf8 unitsOf
  split_ifs with one two three
  · have first : (UInt8.ofNat c).toNat = c := toNat_ofNat_of_lt (by omega)
    refine ⟨_,_,rfl,?_⟩
    rw [wtf8Step,first,if_pos one]
    rfl
  · omega
  · have first := toNat_ofNat_of_lt (n := 0xC0 + c / 64 % 32) (by omega)
    have second := toNat_ofNat_of_lt (n := 0x80 + c % 64) (by omega)
    have code : (0xC0 + c / 64 % 32) % 32 * 64 + (0x80 + c % 64) % 64 = c := by omega
    refine ⟨_,_,rfl,?_⟩
    simp only [wtf8Step,first,second,List.cons_append,List.nil_append,List.getD_cons_zero,code]
    rw [if_neg (by omega),if_neg (by omega),if_pos (by omega)]
    rfl
  · omega
  · have first := toNat_ofNat_of_lt (n := 0xE0 + c / 4096 % 16) (by omega)
    have second := toNat_ofNat_of_lt (n := 0x80 + c / 64 % 64) (by omega)
    have third := toNat_ofNat_of_lt (n := 0x80 + c % 64) (by omega)
    have code : (0xE0 + c / 4096 % 16) % 16 * 4096 + (0x80 + c / 64 % 64) % 64 * 64 + (0x80 + c % 64) % 64 = c := by omega
    refine ⟨_,_,rfl,?_⟩
    simp only [wtf8Step,first,second,third,List.cons_append,List.nil_append,List.getD_cons_zero,List.getD_cons_succ,code]
    rw [if_neg (by omega),if_neg (by omega),if_neg (by omega),if_pos (by omega)]
    rfl
  · have first := toNat_ofNat_of_lt (n := 0xF0 + c / 262144 % 8) (by omega)
    have second := toNat_ofNat_of_lt (n := 0x80 + c / 4096 % 64) (by omega)
    have third := toNat_ofNat_of_lt (n := 0x80 + c / 64 % 64) (by omega)
    have fourth := toNat_ofNat_of_lt (n := 0x80 + c % 64) (by omega)
    have code : (0xF0 + c / 262144 % 8) % 8 * 262144 + (0x80 + c / 4096 % 64) % 64 * 4096 +
        (0x80 + c / 64 % 64) % 64 * 64 + (0x80 + c % 64) % 64 = c := by omega
    refine ⟨_,_,rfl,?_⟩
    simp only [wtf8Step,first,second,third,fourth,List.cons_append,List.nil_append,List.getD_cons_zero,
      List.getD_cons_succ,code]
    rw [if_neg (by omega),if_neg (by omega),if_neg (by omega),if_neg (by omega)]
    rfl

theorem wtf8Steps_encodeUtf8 (small : c < 0x110000) (rest : List UInt8) :
    wtf8Steps (encodeUtf8 c ++ rest) = stepOf c :: wtf8Steps rest := by
  obtain ⟨lead,conts,encoded,step⟩ := wtf8Step_encodeUtf8 small rest
  have size : (stepOf c).advance - 1 = conts.length := by
    rw [stepOf,encoded,List.length_cons,Nat.add_sub_cancel]
  rw [encoded,List.cons_append,wtf8Steps,wtf8StepsAfter,step,size,wtf8StepsAfter_append]

theorem wtf8Steps_wtf8 (bounded : Bounded points) : wtf8Steps (wtf8 points) = points.map stepOf := by
  induction points with
  | nil => rfl
  | cons c points ih => rw [wtf8_cons,wtf8Steps_encodeUtf8 bounded.cons.1,ih bounded.cons.2,List.map_cons]

/-- Both walks charge a lead byte the same. -/
theorem computeUtf16LenWtf8_eq (bytes : List UInt8) : computeUtf16LenWtf8 bytes = ((wtf8Steps bytes).map Wtf8Step.units).sum := by
  suffices ∀ skip,computeUtf16LenWtf8After skip bytes = ((wtf8StepsAfter skip bytes).map Wtf8Step.units).sum from this 0
  induction bytes with
  | nil => intro skip; cases skip <;> rfl
  | cons b bytes ih =>
    intro skip
    cases skip with
    | succ skip => exact ih skip
    | zero =>
      rw [computeUtf16LenWtf8After,wtf8StepsAfter,List.map_cons,List.sum_cons,wtf8Step]
      split_ifs <;> simp [ih]

theorem sum_units (points : List Nat) : ((points.map stepOf).map Wtf8Step.units).sum = (units points).length := by
  rw [List.map_map,units,List.length_flatMap]
  rfl

theorem computeUtf16LenWtf8_wtf8 (bounded : Bounded points) : computeUtf16LenWtf8 (wtf8 points) = (units points).length := by
  rw [computeUtf16LenWtf8_eq,wtf8Steps_wtf8 bounded,sum_units]

end steps

section ascii

variable {points : List Nat} {c : Nat}

theorem allAscii_encodeUtf8 (small : c < 0x110000) : allAscii (encodeUtf8 c) = decide (c < 0x80) := by
  rw [allAscii,Bool.eq_iff_iff,List.all_eq_true,decide_eq_true_iff]
  have bytes (P : Nat → Prop) : (∀ b ∈ encodeUtf8 c,P b.toNat) ↔ ∀ n ∈ digits c,P n := by
    rw [← digits_toNat small,List.forall_mem_map]
  simp only [decide_eq_true_iff]
  rw [bytes (· < 0x80)]
  unfold digits
  split_ifs <;> simp <;> omega

theorem allAscii_wtf8 (bounded : Bounded points) : allAscii (wtf8 points) = points.all (· < 0x80) := by
  induction points with
  | nil => rfl
  | cons c points ih =>
    rw [wtf8_cons,allAscii,List.all_append,← allAscii,← allAscii,allAscii_encodeUtf8 bounded.cons.1,ih bounded.cons.2,
      List.all_cons]

/-- A code point has no more units than bytes, and as many only if it is ASCII. -/
theorem length_unitsOf (c : Nat) : (unitsOf c).length ≤ (encodeUtf8 c).length ∧
    ((unitsOf c).length = (encodeUtf8 c).length ↔ c < 0x80) := by
  unfold unitsOf encodeUtf8
  split_ifs <;> simp <;> omega

theorem length_units_eq (points : List Nat) : (units points).length ≤ (wtf8 points).length ∧
    ((units points).length = (wtf8 points).length ↔ ∀ c ∈ points,c < 0x80) := by
  induction points with
  | nil => simp
  | cons c points ih =>
    have first := length_unitsOf c
    rw [units_cons,wtf8_cons,List.length_append,List.length_append,List.forall_mem_cons,← ih.2,← first.2]
    omega

theorem units_ascii (ascii : ∀ c ∈ points,c < 0x80) : units points = points := by
  induction points with
  | nil => rfl
  | cons c points ih =>
    obtain ⟨first,others⟩ := List.forall_mem_cons.mp ascii
    rw [units_cons,ih others,unitsOf,if_pos (by omega)]
    rfl

theorem wtf8_ascii (ascii : ∀ c ∈ points,c < 0x80) : wtf8 points = points.map UInt8.ofNat := by
  induction points with
  | nil => rfl
  | cons c points ih =>
    obtain ⟨first,others⟩ := List.forall_mem_cons.mp ascii
    rw [wtf8_cons,ih others,encodeUtf8,if_pos first]
    rfl

theorem computeUtf16Len_wtf8 (bounded : Bounded points) : computeUtf16Len (wtf8 points) = (units points).length := by
  rw [computeUtf16Len,allAscii_wtf8 bounded]
  split
  · next ascii =>
    rw [List.all_eq_true] at ascii
    exact ((length_units_eq points).2.mpr fun c member => of_decide_eq_true (ascii c member)).symm
  · rw [fromUtf8_wtf8 bounded]
    split_ifs
    · exact computeUtf16LenWtf8_wtf8 bounded
    · rfl

end ascii

section offsets

variable {points front back : List Nat} {c idx : Nat}

/-- The code points that a walk passes on its way to the offset. -/
def passed : Nat → List Nat → List Nat
  | 0,_ => []
  | _,[] => []
  | idx + 1,c :: points => c :: passed (idx + 1 - (unitsOf c).length) points

theorem length_unitsOf_cases (c : Nat) : c < 0x10000 ∧ (unitsOf c).length = 1 ∨ 0x10000 ≤ c ∧ (unitsOf c).length = 2 := by
  unfold unitsOf
  split_ifs <;> simp <;> omega

@[simp] theorem passed_zero (points : List Nat) : passed 0 points = [] := by
  cases points <;> rfl

theorem passed_units (front back : List Nat) : passed (units front).length (front ++ back) = front := by
  induction front with
  | nil => exact passed_zero back
  | cons c front ih =>
    have size := length_unitsOf_cases c
    rw [units_cons,List.length_append]
    obtain ⟨n,total⟩ : ∃ n,(unitsOf c).length + (units front).length = n + 1 := ⟨_,(Nat.sub_add_cancel (by omega)).symm⟩
    have left : n + 1 - (unitsOf c).length = (units front).length := by omega
    rw [total,List.cons_append,passed,left,ih]

/-- An offset falls between two code points, or between the halves of one, which is then passed. -/
theorem passed_cases (inside : idx ≤ (units points).length) :
    (∃ front back,points = front ++ back ∧ (units front).length = idx) ∨
      ∃ front c back,points = front ++ c :: back ∧ 0x10000 ≤ c ∧ idx = (units front).length + 1 ∧
        passed idx points = front ++ [c] := by
  induction points generalizing idx with
  | nil =>
    rw [units_nil,List.length_nil,Nat.le_zero] at inside
    exact .inl ⟨[],[],rfl,inside.symm⟩
  | cons c points ih =>
    rw [units_cons,List.length_append] at inside
    cases idx with
    | zero => exact .inl ⟨[],c :: points,rfl,rfl⟩
    | succ idx =>
      by_cases half : idx + 1 < (unitsOf c).length
      · have size := length_unitsOf_cases c
        have one : idx = 0 := by omega
        subst one
        refine .inr ⟨[],c,points,rfl,by omega,rfl,?_⟩
        rw [passed,Nat.sub_eq_zero_of_le half.le,passed_zero]
        rfl
      · obtain ⟨front,back,rfl,size⟩ | ⟨front,d,back,rfl,astral,size,same⟩ :=
          @ih (idx + 1 - (unitsOf c).length) (by omega)
        · refine .inl ⟨c :: front,back,rfl,?_⟩
          rw [units_cons,List.length_append]
          omega
        · refine .inr ⟨c :: front,d,back,rfl,astral,?_,?_⟩
          · rw [units_cons,List.length_append]
            omega
          · rw [List.cons_append,passed,same]

theorem passed_prefix (idx : Nat) (points : List Nat) : ∃ back,points = passed idx points ++ back := by
  induction points generalizing idx with
  | nil =>
    cases idx <;> exact ⟨[],rfl⟩
  | cons c points ih =>
    cases idx with
    | zero => exact ⟨c :: points,rfl⟩
    | succ idx =>
      obtain ⟨back,whole⟩ := ih (idx + 1 - (unitsOf c).length)
      refine ⟨back,?_⟩
      rw [passed,List.cons_append,← whole]

theorem passed_ascii {points : List Nat} (ascii : ∀ c ∈ points,c < 0x80) (idx : Nat) : passed idx points = points.take idx := by
  induction points generalizing idx with
  | nil => cases idx <;> rfl
  | cons c points ih =>
    obtain ⟨first,others⟩ := List.forall_mem_cons.mp ascii
    cases idx with
    | zero => rfl
    | succ idx =>
      have size : (unitsOf c).length = 1 := by
        rw [unitsOf,if_pos (by omega)]
        rfl
      rw [passed,size,Nat.add_sub_cancel,ih others,List.take_succ_cons]

theorem passed_append (within : idx ≤ (units front).length) : passed idx (front ++ back) = passed idx front := by
  induction front generalizing idx with
  | nil =>
    rw [units_nil,List.length_nil,Nat.le_zero] at within
    rw [within,passed_zero,passed_zero]
  | cons c front ih =>
    rw [units_cons,List.length_append] at within
    cases idx with
    | zero => rfl
    | succ idx => rw [List.cons_append,passed,passed,ih (by omega)]

theorem passed_of_le (all : (units points).length ≤ idx) : passed idx points = points := by
  induction points generalizing idx with
  | nil => cases idx <;> rfl
  | cons c points ih =>
    have size := length_unitsOf_cases c
    rw [units_cons,List.length_append] at all
    cases idx with
    | zero => omega
    | succ idx => rw [passed,ih (by omega)]

theorem passed_min (idx : Nat) (points : List Nat) : passed (min idx (units points).length) points = passed idx points := by
  obtain le | le := Nat.le_total idx (units points).length
  · rw [Nat.min_eq_left le]
  · rw [Nat.min_eq_right le,passed_of_le (Nat.le_refl _),passed_of_le le]

theorem le_units_passed (inside : idx ≤ (units points).length) : idx ≤ (units (passed idx points)).length := by
  obtain ⟨front,back,rfl,rfl⟩ | ⟨front,c,back,rfl,astral,rfl,same⟩ := passed_cases inside
  · rw [passed_units]
  · have size := length_unitsOf_cases c
    rw [same,units_append,List.length_append,units_cons,units_nil,List.append_nil]
    omega

theorem offsetWalk_eq (points : List Nat) (idx len byteOff u16Count : Nat) (fits : byteOff + (wtf8 points).length ≤ len) :
    offsetWalk len idx byteOff u16Count (points.map stepOf) = byteOff + (wtf8 (passed (idx - u16Count) points)).length := by
  induction points generalizing byteOff u16Count with
  | nil => cases idx - u16Count <;> rfl
  | cons c points ih =>
    rw [List.map_cons,offsetWalk]
    split_ifs with reached
    · rw [Nat.sub_eq_zero_of_le reached]
      rfl
    · rw [wtf8_cons,List.length_append] at fits
      obtain ⟨n,left⟩ : ∃ n,idx - u16Count = n + 1 := ⟨idx - u16Count - 1,by omega⟩
      have clamped : min (byteOff + (stepOf c).advance) len = byteOff + (encodeUtf8 c).length :=
        Nat.min_eq_left (by change byteOff + (encodeUtf8 c).length ≤ len; omega)
      have later : idx - (u16Count + (stepOf c).units) = n + 1 - (unitsOf c).length := by
        rw [← left,Nat.sub_sub]
        rfl
      rw [clamped,ih _ _ (by omega),later,left,passed,wtf8_cons,List.length_append,Nat.add_assoc]

theorem passed_add (n m : Nat) (points : List Nat) : ∃ middle back,passed (n + m) points = passed n points ++ middle ∧
    points = passed n points ++ middle ++ back := by
  induction points generalizing n m with
  | nil => cases n <;> cases m <;> exact ⟨[],[],rfl,rfl⟩
  | cons c points ih =>
    cases n with
    | zero =>
      obtain ⟨back,whole⟩ := passed_prefix (0 + m) (c :: points)
      exact ⟨_,back,rfl,whole⟩
    | succ n =>
      have size := length_unitsOf_cases c
      by_cases half : n + 1 < (unitsOf c).length
      · obtain ⟨back,whole⟩ := passed_prefix (n + 1 + m - (unitsOf c).length) points
        refine ⟨passed (n + 1 + m - (unitsOf c).length) points,back,?_,?_⟩
        · rw [passed,Nat.sub_eq_zero_of_le half.le,passed_zero,Nat.add_right_comm,passed]
          rfl
        · rw [passed,Nat.sub_eq_zero_of_le half.le,passed_zero]
          exact congrArg (c :: ·) whole
      · obtain ⟨middle,back,later,whole⟩ := ih (n + 1 - (unitsOf c).length) m
        refine ⟨middle,back,?_,?_⟩
        · have sum : n + m + 1 - (unitsOf c).length = n + 1 - (unitsOf c).length + m := by omega
          rw [Nat.add_right_comm,passed,passed,sum,later]
          rfl
        · rw [passed]
          exact congrArg (c :: ·) whole

theorem utf16OffsetToByteOffset_wtf8 (bounded : Bounded points) (idx : Nat) :
    utf16OffsetToByteOffset (wtf8 points) idx = (wtf8 (passed idx points)).length := by
  unfold utf16OffsetToByteOffset
  split_ifs with zero
  · rw [zero,passed_zero]
    rfl
  · have walked := offsetWalk_eq points idx (wtf8 points).length 0 0 (Nat.zero_add _).le
    rwa [Nat.zero_add,Nat.sub_zero,← wtf8Steps_wtf8 bounded] at walked

theorem byteOffsetToUtf16Index_wtf8 (bounded : Bounded (front ++ back)) :
    byteOffsetToUtf16Index (wtf8 (front ++ back)) (wtf8 front).length = (units front).length := by
  have taken : (wtf8 (front ++ back)).take (min (wtf8 front).length (wtf8 (front ++ back)).length) = wtf8 front := by
    rw [wtf8_append,List.length_append,Nat.min_eq_left (Nat.le_add_right _ _)]
    exact List.take_left
  unfold byteOffsetToUtf16Index
  dsimp only
  rw [taken,allAscii_wtf8 bounded.append.1,wtf8Steps_wtf8 bounded.append.1,sum_units]
  split_ifs with zero ascii
  · have small := (length_units_eq front).1
    omega
  · rw [List.all_eq_true] at ascii
    exact ((length_units_eq front).2.mpr fun c member => of_decide_eq_true (ascii c member)).symm
  · rfl

end offsets

section surrogates

variable {points : List Nat} {c : Nat}

theorem bytesHaveLoneSurrogate_cons {b : UInt8} (other : b.toNat ≠ 0xED) (rest : List UInt8) :
    bytesHaveLoneSurrogate (b :: rest) = bytesHaveLoneSurrogate rest := by
  match rest with
  | [] => rfl
  | [_] => rfl
  | b₁ :: b₂ :: rest => simp [bytesHaveLoneSurrogate,other]

theorem bytesHaveLoneSurrogate_continuation {conts : List UInt8} (continuation : ∀ b ∈ conts,isContinuation b = true)
    (rest : List UInt8) : bytesHaveLoneSurrogate (conts ++ rest) = bytesHaveLoneSurrogate rest := by
  induction conts with
  | nil => rfl
  | cons b conts ih =>
    obtain ⟨first,others⟩ := List.forall_mem_cons.mp continuation
    rw [isContinuation,decide_eq_true_iff] at first
    rw [List.cons_append,bytesHaveLoneSurrogate_cons (by omega),ih others]

theorem bytesHaveLoneSurrogate_encodeUtf8 (small : c < 0x110000) (rest : List UInt8) :
    bytesHaveLoneSurrogate (encodeUtf8 c ++ rest) = (isSurrogate c || bytesHaveLoneSurrogate rest) := by
  obtain ⟨lead,conts,encoded,-,continuation⟩ := encodeUtf8_lead small
  have bytes := digits_toNat small
  rw [encoded,List.map_cons] at bytes
  by_cases other : lead.toNat = 0xED
  · have range : 0xD000 ≤ c ∧ c < 0xE000 := by
      unfold digits at bytes
      split_ifs at bytes <;> obtain ⟨first,-⟩ := List.cons.inj bytes <;> omega
    rw [digits,if_neg (by omega),if_neg (by omega),if_pos (by omega)] at bytes
    obtain ⟨-,tail⟩ := List.cons.inj bytes
    obtain ⟨b₁,more,rfl,second,tail⟩ := List.map_eq_cons_iff.mp tail
    obtain ⟨b₂,more,rfl,third,tail⟩ := List.map_eq_cons_iff.mp tail
    rw [List.map_eq_nil_iff] at tail
    subst tail
    have later := bytesHaveLoneSurrogate_continuation continuation rest
    rw [List.cons_append,List.cons_append,List.nil_append] at later
    rw [encoded,List.cons_append,List.cons_append,List.cons_append,List.nil_append,bytesHaveLoneSurrogate,later]
    congr 1
    rw [other,second,third,isSurrogate,Bool.eq_iff_iff]
    simp only [decide_true,Bool.true_and,Bool.and_eq_true,decide_eq_true_iff]
    omega
  · have scalar : isSurrogate c = false := by
      rw [isSurrogate,decide_eq_false_iff_not]
      rintro range
      rw [digits,if_neg (by omega),if_neg (by omega),if_pos (by omega)] at bytes
      obtain ⟨first,-⟩ := List.cons.inj bytes
      omega
    rw [encoded,List.cons_append,bytesHaveLoneSurrogate_cons other,bytesHaveLoneSurrogate_continuation continuation,scalar,
      Bool.false_or]

theorem bytesHaveLoneSurrogate_wtf8 (bounded : Bounded points) : bytesHaveLoneSurrogate (wtf8 points) = points.any isSurrogate := by
  induction points with
  | nil => rfl
  | cons c points ih =>
    rw [wtf8_cons,bytesHaveLoneSurrogate_encodeUtf8 bounded.cons.1,ih bounded.cons.2,List.any_cons]

end surrogates

namespace Text

variable (t : Text)

theorem isAsciiString_header : isAsciiString t.header = decide (∀ c ∈ t.points,c < 0x80) :=
  decide_eq_decide.mpr (length_units_eq t.points).2

end Text

end Perry.Strings
