import Perry.Strings.Header

/-! `slice`, `substring` and `substr` copy the bytes between two positions, which count code units.
A position inside an astral code point is taken as its end. -/
namespace Perry.Strings

open Unicode

/-- The copy with which the three functions end. -/
def copyUnits (s : StringHeader) (start stop : Nat) : StringHeader :=
  if isAsciiString s then stringCopyRange s start (stop - start) (stop - start) 0
  else
    let byteStart := utf16OffsetToByteOffset s.bytes start
    let byteEnd := utf16OffsetToByteOffset s.bytes stop
    stringCopyRange s byteStart (byteEnd - byteStart) (stop - start) 0

def jsStringSlice (s : StringHeader) (start stop : Int) : StringHeader :=
  let len := asI32 s.utf16Len
  let start := if start < 0 then max (len + start) 0 else min start len
  let stop := if stop < 0 then max (len + stop) 0 else min stop len
  if stop ≤ start then jsStringFromBytes [] else copyUnits s start.toNat stop.toNat

def jsStringSubstring (s : StringHeader) (start stop : Int) : StringHeader :=
  let len := asI32 s.utf16Len
  let start := min (max start 0) len
  let stop := min (max stop 0) len
  let bounds := if stop < start then (stop,start) else (start,stop)
  if bounds.2 ≤ bounds.1 then jsStringFromBytes [] else copyUnits s bounds.1.toNat bounds.2.toNat

/-- The arguments are integers already; a length that is undefined is none. -/
def jsStringSubstr (s : StringHeader) (intStart : Int) (intLength : Option Int) : StringHeader :=
  let size : Int := s.utf16Len
  let start := if intStart < 0 then max (size + intStart) 0 else min intStart size
  let length := max (min (intLength.getD size) size) 0
  let stop := min (start + length) size
  if stop ≤ start then jsStringFromBytes [] else copyUnits s start.toNat stop.toNat

/-- A position counted from the end if it is negative. -/
def relative (len : Nat) (position : Int) : Nat := if position < 0 then (len + position).toNat else min position.toNat len

/-- The positions between which the specification takes the units. -/
def sliceBounds (len : Nat) (start stop : Int) : Nat × Nat := (relative len start,relative len stop)

def substringBounds (len : Nat) (start stop : Int) : Nat × Nat :=
  (min (min start.toNat len) (min stop.toNat len),max (min start.toNat len) (min stop.toNat len))

def substrBounds (len : Nat) (start : Int) (length : Option Int) : Nat × Nat :=
  (relative len start,min (relative len start + (length.elim len Int.toNat)) len)

/-- The result holds the units between the bounds under a truthful header. -/
structure Holds (t : JsString) (bounds : Nat × Nat) (result : StringHeader) : Prop where
  units : utf16 result.bytes = (t.units.take bounds.2).drop bounds.1
  truthful : Truthful result

/-- Nothing lies between the bounds, or each is between two code points and no surrogate between them. -/
def CutsCleanly (points : List Nat) (bounds : Nat × Nat) : Prop :=
  bounds.2 ≤ bounds.1 ∨ ∃ front middle back,points = front ++ middle ++ back ∧ (units front).length = bounds.1 ∧
    (units (front ++ middle)).length = bounds.2 ∧ ∀ c ∈ middle,isSurrogate c = false

section copies

variable {t : JsString} {start stop : Nat}

/-- The copy holds the code points that are passed between the two positions. -/
theorem copyUnits_eq (ordered : start ≤ stop) (inside : stop ≤ t.units.length) : ∃ middle back,
    passed stop t.points = passed start t.points ++ middle ∧ t.points = passed start t.points ++ middle ++ back ∧
      copyUnits t.header start stop = ⟨stop - start,0,wtf8 middle⟩ := by
  obtain ⟨m,rfl⟩ := Nat.exists_eq_add_of_le ordered
  obtain ⟨middle,back,later,whole⟩ := passed_add start m t.points
  refine ⟨middle,back,later,whole,?_⟩
  have bytes : t.bytes = wtf8 (passed start t.points) ++ (wtf8 middle ++ wtf8 back) := by
    rw [Text.bytes,← wtf8_append,← wtf8_append,← List.append_assoc,← whole]
  have copied : stringCopyRange t.header (wtf8 (passed start t.points)).length (wtf8 middle).length (start + m - start) 0 =
      ⟨start + m - start,0,wtf8 middle⟩ := by
    rw [stringCopyRange,Text.header,bytes]
    dsimp only
    rw [List.drop_left,List.take_left]
  rw [copyUnits,t.isAsciiString_header]
  split
  · next ascii =>
    have plain := of_decide_eq_true ascii
    have sizes (part : List Nat) (within : ∀ c ∈ part,c ∈ t.points) : (wtf8 part).length = part.length := by
      rw [wtf8_ascii fun c member => plain c (within c member),List.length_map]
    have prefix_size (idx : Nat) (within : idx ≤ t.units.length) : (passed idx t.points).length = idx := by
      rw [Text.units,units_ascii plain] at within
      rw [passed_ascii plain,List.length_take_of_le within]
    have first := prefix_size start (by omega)
    have second := prefix_size (start + m) inside
    rw [later,List.length_append,first] at second
    have parts : ∀ c ∈ passed start t.points ++ middle ++ back,c ∈ t.points := by
      rw [← whole]
      exact fun c member => member
    rw [sizes _ fun c member => parts c (by simp [member]),sizes _ fun c member => parts c (by simp [member]),first] at copied
    have size : start + m - start = middle.length := by omega
    rw [size] at copied ⊢
    exact copied
  · have first : utf16OffsetToByteOffset t.header.bytes start = (wtf8 (passed start t.points)).length :=
      utf16OffsetToByteOffset_wtf8 t.bounded start
    have second : utf16OffsetToByteOffset t.header.bytes (start + m) = (wtf8 (passed start t.points)).length + (wtf8 middle).length := by
      rw [← List.length_append,← wtf8_append,← later]
      exact utf16OffsetToByteOffset_wtf8 t.bounded (start + m)
    dsimp only
    rw [first,second,Nat.add_sub_cancel_left]
    exact copied

/-- What a header that claims the distance of the positions, and no surrogate, says of the copy. -/
theorem holds_copy_iff (middle : List Nat) (bounded : Bounded middle) : Holds t (start,stop) ⟨stop - start,0,wtf8 middle⟩ ↔
    units middle = (t.units.take stop).drop start ∧ stop - start = (units middle).length ∧ ∀ c ∈ middle,isSurrogate c = false := by
  have flag : ∀ n bytes,hasLoneSurrogates ⟨n,0,bytes⟩ = false := fun _ _ => by
    change decide ((0 : UInt32) &&& stringFlagHasLoneSurrogates ≠ 0) = false
    decide
  have none : (false = middle.any isSurrogate) ↔ ∀ c ∈ middle,isSurrogate c = false := by
    rw [eq_comm,List.any_eq_false]
    simp only [Bool.not_eq_true]
  rw [← none]
  constructor
  · rintro ⟨same,length,lone⟩
    rw [utf16_wtf8 bounded] at same
    rw [computeUtf16Len_wtf8 bounded] at length
    rw [flag,bytesHaveLoneSurrogate_wtf8 bounded] at lone
    exact ⟨same,length,lone⟩
  · rintro ⟨same,length,lone⟩
    refine ⟨?_,?_,?_⟩
    · rw [utf16_wtf8 bounded]
      exact same
    · rw [computeUtf16Len_wtf8 bounded]
      exact length
    · rw [flag,bytesHaveLoneSurrogate_wtf8 bounded]
      exact lone

theorem getLast?_units_append (front : List Nat) {c : Nat} (astral : 0x10000 ≤ c) :
    (units (front ++ [c])).getLast? = some (0xDC00 + (c - 0x10000) % 1024) := by
  rw [units_append,units_cons,unitsOf,if_neg (by omega),units_nil,List.append_nil,List.getLast?_append]
  rfl

/-- Between two positions the copy is right exactly where it is cut cleanly. -/
theorem holds_copyUnits_iff (ordered : start < stop) (inside : stop ≤ t.units.length) :
    Holds t (start,stop) (copyUnits t.header start stop) ↔ CutsCleanly t.points (start,stop) := by
  obtain ⟨middle,back,later,whole,copied⟩ := copyUnits_eq ordered.le inside
  have bounded : Bounded middle := (whole ▸ t.bounded).append.1.append.2
  rw [copied,holds_copy_iff middle bounded,CutsCleanly,or_iff_right (Nat.not_le.mpr ordered)]
  constructor
  · rintro ⟨same,length,scalars⟩
    have sizes : (units (passed stop t.points)).length = (units (passed start t.points)).length + (stop - start) := by
      rw [later,units_append,List.length_append,length]
    obtain ⟨front,rest,shape,first⟩ | ⟨front,c,rest,shape,astral,first,taken⟩ :=
        @passed_cases t.points start (ordered.le.trans inside)
    · have started : passed start t.points = front := by rw [shape,← first,passed_units]
      obtain ⟨front',rest',shape',second⟩ | ⟨front',c',rest',shape',astral',second,taken'⟩ := passed_cases inside
      · have stopped : passed stop t.points = front' := by rw [shape',← second,passed_units]
        refine ⟨front,middle,back,?_,first,?_,scalars⟩
        · rw [← started]
          exact whole
        · rw [← started,← later,stopped]
          exact second
      · rw [started,taken',units_append,List.length_append] at sizes
        have two := length_unitsOf_cases c'
        rw [units_cons,units_nil,List.append_nil] at sizes
        omega
    · exfalso
      rw [taken,units_append,List.length_append,units_cons,units_nil,List.append_nil] at sizes
      have two := length_unitsOf_cases c
      obtain ⟨front',rest',shape',second⟩ | ⟨front',c',rest',shape',astral',second,taken'⟩ := passed_cases inside
      · have stopped : passed stop t.points = front' := by rw [shape',← second,passed_units]
        rw [stopped] at sizes
        omega
      · -- both positions are inside: the copy ends in a second half, the units asked for in a first half
        obtain rfl | ⟨body,last,rfl⟩ := List.eq_nil_or_concat middle
        · rw [units_nil,List.length_nil] at length
          omega
        · have same_last : c' = last := by
            rw [taken',List.concat_eq_append,← List.append_assoc] at later
            exact List.head_eq_of_cons_eq (List.append_inj_right' later rfl)
          subst same_last
          have cut : t.units.take stop = units front' ++ [0xD800 + (c' - 0x10000) / 1024] := by
            rw [Text.units,shape',units_append,units_cons,unitsOf,if_neg (by omega),second,List.take_length_add_append]
            rfl
          have ends := congrArg List.getLast? same
          have size : ¬ (t.units.take stop).length ≤ start := by
            rw [List.length_take_of_le inside]
            omega
          rw [List.concat_eq_append,getLast?_units_append body astral',List.getLast?_drop,if_neg size,cut,
            List.getLast?_append,List.getLast?_singleton,Option.some_or] at ends
          have equal := Option.some_inj.mp ends
          have small := t.bounded c' (shape' ▸ List.mem_append_right _ List.mem_cons_self)
          omega
  · rintro ⟨front,rest,more,shape,first,second,scalars⟩
    dsimp only at first second
    have started : passed start t.points = front := by rw [shape,List.append_assoc,← first,passed_units]
    have stopped : passed stop t.points = front ++ rest := by rw [shape,← second,passed_units]
    rw [started,stopped] at later
    obtain rfl := List.append_cancel_left later
    rw [units_append,List.length_append] at second
    have all : t.units = units front ++ units rest ++ units more := by
      rw [Text.units,shape,units_append,units_append]
    refine ⟨?_,?_,scalars⟩
    · rw [all,List.take_left' (by rw [List.length_append,second]),List.drop_left' first]
    · omega

theorem holds_empty (bounds : Nat × Nat) (empty : bounds.2 ≤ bounds.1) : Holds t bounds (jsStringFromBytes []) := by
  refine ⟨?_,rfl,by decide⟩
  rw [List.drop_eq_nil_of_le ((List.length_take_le _ _).trans empty)]
  rfl

/-- A function that ends with the copy between the bounds, or with the empty string. -/
theorem holds_iff {result : StringHeader} {bounds : Nat × Nat} (inside : bounds.2 ≤ t.units.length)
    (cases : bounds.2 ≤ bounds.1 ∧ result = jsStringFromBytes [] ∨ bounds.1 < bounds.2 ∧
      result = copyUnits t.header bounds.1 bounds.2) : Holds t bounds result ↔ CutsCleanly t.points bounds := by
  obtain ⟨empty,rfl⟩ | ⟨ordered,rfl⟩ := cases
  · exact iff_of_true (holds_empty bounds empty) (.inl empty)
  · exact holds_copyUnits_iff ordered inside

end copies

section bounds

theorem relative_le (len : Nat) (i : Int) : relative len i ≤ len := by
  unfold relative
  split_ifs <;> omega

theorem relative_eq (len : Nat) (i : Int) : (if i < 0 then max ((len : Int) + i) 0 else min i len) = relative len i := by
  unfold relative
  split_ifs <;> omega

theorem clamped_eq (len : Nat) (i : Int) : min (max i 0) (len : Int) = (min i.toNat len : Nat) := by
  omega

end bounds

section functions

variable (t : JsString)

theorem asI32_utf16Len : asI32 t.header.utf16Len = t.units.length := by
  have short := t.short
  rw [maxStringLength] at short
  exact asI32_of_lt (short.trans_lt (by norm_num))

theorem jsStringSlice_cases (start stop : Int) :
    (relative t.units.length stop ≤ relative t.units.length start ∧ jsStringSlice t.header start stop = jsStringFromBytes []) ∨
      relative t.units.length start < relative t.units.length stop ∧ jsStringSlice t.header start stop =
        copyUnits t.header (relative t.units.length start) (relative t.units.length stop) := by
  simp only [jsStringSlice,asI32_utf16Len,relative_eq,Int.toNat_natCast]
  split_ifs with empty
  · exact .inl ⟨by omega,rfl⟩
  · exact .inr ⟨by omega,rfl⟩

theorem jsStringSubstring_cases (start stop : Int) :
    ((substringBounds t.units.length start stop).2 ≤ (substringBounds t.units.length start stop).1 ∧
      jsStringSubstring t.header start stop = jsStringFromBytes []) ∨
    (substringBounds t.units.length start stop).1 < (substringBounds t.units.length start stop).2 ∧
      jsStringSubstring t.header start stop =
        copyUnits t.header (substringBounds t.units.length start stop).1 (substringBounds t.units.length start stop).2 := by
  unfold jsStringSubstring substringBounds
  dsimp only
  rw [asI32_utf16Len,clamped_eq,clamped_eq]
  generalize min start.toNat t.units.length = a
  generalize min stop.toNat t.units.length = b
  by_cases swapped : b < a
  · rw [if_pos (Nat.cast_lt.mpr swapped),min_eq_right swapped.le,max_eq_left swapped.le]
    dsimp only
    rw [if_neg (not_le.mpr (Nat.cast_lt.mpr swapped)),Int.toNat_natCast,Int.toNat_natCast]
    exact .inr ⟨swapped,rfl⟩
  · have ordered := Nat.le_of_not_lt swapped
    rw [if_neg (not_lt.mpr (Nat.cast_le.mpr ordered)),min_eq_left ordered,max_eq_right ordered]
    dsimp only
    rw [Int.toNat_natCast,Int.toNat_natCast]
    split_ifs with empty
    · exact .inl ⟨Nat.cast_le.mp empty,rfl⟩
    · exact .inr ⟨Nat.lt_of_not_le fun le => empty (Nat.cast_le.mpr le),rfl⟩

theorem jsStringSubstr_cases (start : Int) (length : Option Int) :
    ((substrBounds t.units.length start length).2 ≤ (substrBounds t.units.length start length).1 ∧
      jsStringSubstr t.header start length = jsStringFromBytes []) ∨
    (substrBounds t.units.length start length).1 < (substrBounds t.units.length start length).2 ∧
      jsStringSubstr t.header start length =
        copyUnits t.header (substrBounds t.units.length start length).1 (substrBounds t.units.length start length).2 := by
  have size : (t.header.utf16Len : Int) = t.units.length := rfl
  simp only [jsStringSubstr,size,relative_eq]
  have stops : min ((relative t.units.length start : Int) + max (min (length.getD t.units.length) t.units.length) 0) t.units.length =
      ((substrBounds t.units.length start length).2 : Int) := by
    cases length <;> simp only [substrBounds,Option.getD_none,Option.getD_some,Option.elim] <;> omega
  rw [stops,Int.toNat_natCast,Int.toNat_natCast]
  split_ifs
  · exact .inl ⟨by simp only [substrBounds] at *; omega,rfl⟩
  · exact .inr ⟨by simp only [substrBounds] at *; omega,rfl⟩

/-- Between two positions in order a slice holds what is passed from one to the other. -/
theorem jsStringSlice_units (start stop : Int) (ordered : relative t.units.length start ≤ relative t.units.length stop) :
    ∃ middle,passed (relative t.units.length stop) t.points = passed (relative t.units.length start) t.points ++ middle ∧
      utf16 (jsStringSlice t.header start stop).bytes = units middle := by
  obtain ⟨empty,result⟩ | ⟨-,result⟩ := jsStringSlice_cases t start stop
  · refine ⟨[],?_,?_⟩
    · rw [ordered.antisymm empty,List.append_nil]
    · rw [result]
      rfl
  · obtain ⟨middle,back,later,whole,copied⟩ := copyUnits_eq ordered (relative_le t.units.length stop)
    refine ⟨middle,later,?_⟩
    rw [result,copied]
    exact utf16_wtf8 (whole ▸ t.bounded).append.1.append.2

/-- The part before a position and the part from it on are the string. -/
theorem jsStringSlice_halves (k : Int) :
    utf16 (jsStringSlice t.header 0 k).bytes ++ utf16 (jsStringSlice t.header k t.units.length).bytes = t.units := by
  have zero : relative t.units.length 0 = 0 := by simp [relative]
  have all : relative t.units.length t.units.length = t.units.length := by simp [relative]
  obtain ⟨first,upto,before⟩ := jsStringSlice_units t 0 k (by rw [zero]; exact Nat.zero_le _)
  obtain ⟨second,beyond,after⟩ := jsStringSlice_units t k t.units.length (by rw [all]; exact relative_le _ _)
  have whole := passed_units t.points []
  rw [zero,passed_zero,List.nil_append] at upto
  rw [all,upto] at beyond
  rw [List.append_nil] at whole
  rw [before,after,← units_append,← beyond,Text.units,whole]

/-- What the three functions return is right exactly for a clean cut; the halves of a string always make it up. -/
theorem slices_exact (start stop : Int) (length : Option Int) :
    (Holds t (sliceBounds t.units.length start stop) (jsStringSlice t.header start stop) ↔
      CutsCleanly t.points (sliceBounds t.units.length start stop)) ∧
    (Holds t (substringBounds t.units.length start stop) (jsStringSubstring t.header start stop) ↔
      CutsCleanly t.points (substringBounds t.units.length start stop)) ∧
    (Holds t (substrBounds t.units.length start length) (jsStringSubstr t.header start length) ↔
      CutsCleanly t.points (substrBounds t.units.length start length)) ∧
    utf16 (jsStringSlice t.header 0 start).bytes ++ utf16 (jsStringSlice t.header start t.units.length).bytes = t.units := by
  refine ⟨?_,?_,?_,jsStringSlice_halves t start⟩
  · exact holds_iff (relative_le _ _) (jsStringSlice_cases t start stop)
  · refine holds_iff ?_ (jsStringSubstring_cases t start stop)
    exact max_le (Nat.min_le_right _ _) (Nat.min_le_right _ _)
  · exact holds_iff (Nat.min_le_right _ _) (jsStringSubstr_cases t start length)

end functions

/-- The first half of a pair is copied with its second, and a lone surrogate without the flag. -/
theorem slice_untruthful :
    jsStringSlice grinning.header 0 1 = ⟨1,0,[0xF0,0x9F,0x98,0x80]⟩ ∧
    ¬ Holds grinning (sliceBounds 2 0 1) (jsStringSlice grinning.header 0 1) ∧
    jsStringSlice loneHigh.header 0 1 = ⟨1,0,[0xED,0xA0,0xBD]⟩ ∧
    ¬ Holds loneHigh (sliceBounds 1 0 1) (jsStringSlice loneHigh.header 0 1) := by
  have first : jsStringSlice grinning.header 0 1 = ⟨1,0,wtf8 [0x1F600]⟩ := by decide
  have second : jsStringSlice loneHigh.header 0 1 = ⟨1,0,wtf8 [0xD83D]⟩ := by decide
  refine ⟨first,?_,second,?_⟩
  · rintro ⟨-,length,-⟩
    rw [first,computeUtf16Len_wtf8 (by decide)] at length
    exact absurd length (by decide)
  · rintro ⟨-,-,flag⟩
    rw [second,bytesHaveLoneSurrogate_wtf8 (by decide)] at flag
    exact absurd flag (by decide)

end Perry.Strings
