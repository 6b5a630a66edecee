import Perry.Containers.Occurrences
import Perry.Runtime.BigIntCompare
import Perry.Strings.Header

/-! `indexOf` and `lastIndexOf` search the bytes and report code units. The bytes of a needle stand
in the haystack where its code points do; its units may stand elsewhere too. -/
namespace Perry.Strings

open Containers Unicode
open Runtime.BigInt (F64)

/-- `js_string_index_of_from` where every unit is a byte. -/
def indexOfAscii (haystack needle : StringHeader) (fromIndex : Int) : Int :=
  let start := if fromIndex < 0 then 0 else fromIndex.toNat
  if needle.bytes.length = 0 then asI32 (min start haystack.bytes.length)
  else if haystack.bytes.length < start + needle.bytes.length then -1
  else match find needle.bytes (haystack.bytes.drop start) with
    | some pos => asI32 (start + pos)
    | none => -1

def indexOfWide (haystack needle : StringHeader) (fromIndex : Int) : Int :=
  let u16Start := if fromIndex < 0 then 0 else fromIndex.toNat
  let byteStart := utf16OffsetToByteOffset haystack.bytes u16Start
  if haystack.bytes.length < byteStart then if needle.bytes.isEmpty then asI32 haystack.utf16Len else -1
  else match find needle.bytes (haystack.bytes.drop byteStart) with
    | some bytePos => asI32 (byteOffsetToUtf16Index haystack.bytes (byteStart + bytePos))
    | none => -1

def jsStringIndexOfFrom (haystack needle : StringHeader) (fromIndex : Int) : Int :=
  if isAsciiString haystack then indexOfAscii haystack needle fromIndex else indexOfWide haystack needle fromIndex

def lastIndexOfAscii (haystack needle : StringHeader) : Int :=
  if haystack.bytes.length < needle.bytes.length then -1
  else match rfind needle.bytes haystack.bytes with
    | some pos => asI32 pos
    | none => -1

def lastIndexOfWide (haystack needle : StringHeader) : Int :=
  match rfind needle.bytes haystack.bytes with
  | some bytePos => asI32 (byteOffsetToUtf16Index haystack.bytes bytePos)
  | none => -1

def jsStringLastIndexOf (haystack needle : StringHeader) : Int :=
  if needle.bytes.length = 0 then asI32 haystack.utf16Len
  else if isAsciiString haystack then lastIndexOfAscii haystack needle
  else lastIndexOfWide haystack needle

/-- The position up to which `js_string_last_index_of_from` searches. -/
def pos16 (hlen16 : Nat) : F64 → Nat
  | .nan => hlen16
  | .infinite negative => if negative then 0 else hlen16
  | .finite d => if (hlen16 : ℚ) ≤ d.value then hlen16 else if d.value ≤ 0 then 0 else ⌊d.value⌋.toNat

/-- The matches come in ascending order: the first one beyond the position ends the walk. -/
def bestMatch (h : List UInt8) (pos16 : Nat) : Int → List Nat → Int
  | best,[] => best
  | best,bytePos :: later =>
    let u16idx := byteOffsetToUtf16Index h bytePos
    if u16idx ≤ pos16 then bestMatch h pos16 (asI32 u16idx) later else best

def jsStringLastIndexOfFrom (haystack needle : StringHeader) (position : F64) (hasPos : Int) : Int :=
  if hasPos = 0 then jsStringLastIndexOf haystack needle
  else
    let pos16 := pos16 haystack.utf16Len position
    if needle.bytes.length = 0 then asI32 pos16
    else bestMatch haystack.bytes pos16 (-1) (matchIndices needle.bytes haystack.bytes)

/-- The position from which the specification searches. -/
def clampFrom (len : Nat) (position : Int) : Nat := min position.toNat len

/-- The position up to which it searches backwards: not a number stands for the end. -/
def clampTo (len : Nat) : F64 → Nat
  | .nan => len
  | .infinite negative => if negative then 0 else len
  | .finite d => min ⌊d.value⌋.toNat len

/-- The code points of the needle stand in the haystack, behind so many units. -/
def OccursWhole (needle haystack : List Nat) (i : Nat) : Prop :=
  ∃ front back,haystack = front ++ (needle ++ back) ∧ (units front).length = i

/-- The same, counting only matches that do not overlap those before them. -/
def OccursApart (needle haystack : List Nat) (i : Nat) : Prop :=
  ∃ k ∈ matchIndices needle haystack,(units (haystack.take k)).length = i

section codes

variable {needle haystack : List Nat} {c i k : Nat}

theorem encodeUtf8_ne_nil (c : Nat) : encodeUtf8 c ≠ [] := by
  unfold encodeUtf8
  split_ifs <;> exact List.cons_ne_nil _ _

theorem unitsOf_ne_nil (c : Nat) : unitsOf c ≠ [] := by
  unfold unitsOf
  split_ifs <;> exact List.cons_ne_nil _ _

theorem occursWhole_iff : OccursWhole needle haystack i ↔ ∃ k,Occurs needle haystack k ∧ place unitsOf haystack k = i := by
  simp only [occurs_split]
  constructor
  · rintro ⟨front,back,rfl,size⟩
    exact ⟨_,⟨front,back,rfl,rfl⟩,(place_left front _).trans size⟩
  · rintro ⟨_,⟨front,back,rfl,rfl⟩,size⟩
    exact ⟨front,back,rfl,(place_left front _).symm.trans size⟩

theorem OccursWhole.units (occurs : OccursWhole needle haystack i) : Occurs (units needle) (units haystack) i := by
  obtain ⟨front,back,rfl,rfl⟩ := occurs
  rw [occurs_split,units_append,units_append]
  exact ⟨_,_,rfl,rfl⟩

theorem OccursApart.whole (occurs : OccursApart needle haystack i) : OccursWhole needle haystack i := by
  obtain ⟨k,member,size⟩ := occurs
  exact occursWhole_iff.mpr ⟨k,occurs_of_mem_matchIndices member,size⟩

theorem occurs_wtf8 (bounded : Bounded haystack) (bounded' : Bounded needle) (some : needle ≠ []) (b : Nat) :
    Occurs (wtf8 needle) (wtf8 haystack) b ↔ ∃ k,Occurs needle haystack k ∧ place encodeUtf8 haystack k = b := by
  simp only [occurs_split]
  constructor
  · rintro ⟨front,back,whole,rfl⟩
    obtain ⟨as,cs,rfl,rfl,rfl⟩ := wtf8_occurrence bounded bounded' some whole
    exact ⟨_,⟨as,cs,rfl,rfl⟩,place_left as _⟩
  · rintro ⟨_,⟨front,back,rfl,rfl⟩,rfl⟩
    refine ⟨wtf8 front,wtf8 back,?_,(place_left front _).symm⟩
    rw [wtf8_append,wtf8_append]

theorem occurrences_wtf8 (bounded : Bounded haystack) (bounded' : Bounded needle) (some : needle ≠ []) :
    occurrences (wtf8 needle) (wtf8 haystack) = (occurrences needle haystack).map (place encodeUtf8 haystack) :=
  occurrences_flatMap (fun c _ => encodeUtf8_ne_nil c) (occurs_wtf8 bounded bounded' some)

theorem find_nil {α : Type*} [DecidableEq α] (hay : List α) : find [] hay = some 0 := by
  rw [find,occurrences,List.range_succ_eq_map,List.filter_cons_of_pos]
  · rfl
  · exact decide_eq_true ⟨Nat.zero_le _,List.nil_prefix⟩

theorem find_wtf8 (bounded : Bounded haystack) (bounded' : Bounded needle) :
    find (wtf8 needle) (wtf8 haystack) = (find needle haystack).map (place encodeUtf8 haystack) := by
  by_cases empty : needle = []
  · subst empty
    rw [wtf8_nil,find_nil,find_nil]
    rfl
  · rw [find,occurrences_wtf8 bounded bounded' empty,List.head?_map]
    rfl

theorem rfind_wtf8 (bounded : Bounded haystack) (bounded' : Bounded needle) (some : needle ≠ []) :
    rfind (wtf8 needle) (wtf8 haystack) = (rfind needle haystack).map (place encodeUtf8 haystack) := by
  rw [rfind,occurrences_wtf8 bounded bounded' some,List.getLast?_map]
  rfl

theorem matchIndices_wtf8 (bounded : Bounded haystack) (bounded' : Bounded needle) (some : needle ≠ []) :
    matchIndices (wtf8 needle) (wtf8 haystack) = (matchIndices needle haystack).map (place encodeUtf8 haystack) := by
  rw [matchIndices,occurrences_wtf8 bounded bounded' some]
  exact separate_map (fun c _ => encodeUtf8_ne_nil c) (fun _ member => mem_occurrences.mp member) (Nat.zero_le _)

theorem byteOffsetToUtf16Index_place (bounded : Bounded haystack) (k : Nat) :
    byteOffsetToUtf16Index (wtf8 haystack) (place encodeUtf8 haystack k) = place unitsOf haystack k := by
  have whole := List.take_append_drop k haystack
  have read := @byteOffsetToUtf16Index_wtf8 (haystack.take k) (haystack.drop k) (whole.symm ▸ bounded)
  rw [whole] at read
  exact read

end codes

section forwards

variable (h n : JsString)

theorem asI32_units {m : Nat} (inside : m ≤ h.units.length) : asI32 m = m := by
  have short := h.short
  rw [maxStringLength] at short
  exact asI32_of_lt ((inside.trans short).trans_lt (by norm_num))

theorem fromIndex_clamped (p : Int) : (if p < 0 then 0 else p.toNat) = p.toNat := by
  split_ifs <;> omega

/-- The code points that are passed are at the front of whatever ends at the offset or later. -/
theorem passed_front {points front back : List Nat} {idx : Nat} (whole : points = front ++ back) (within : idx ≤ (units front).length) :
    ∃ more,front = passed idx points ++ more := by
  rw [whole,passed_append within]
  exact passed_prefix idx front

/-- The search over the bytes finds the first place from the position on where the code points stand. -/
theorem indexOfWide_first (p : Int) :
    IsFirst (OccursWhole n.points h.points) (clampFrom h.units.length p) (indexOfWide h.header n.header p) := by
  obtain ⟨back,whole⟩ := passed_prefix (clampFrom h.units.length p) h.points
  have start : passed p.toNat h.points = passed (clampFrom h.units.length p) h.points := (passed_min _ _).symm
  have reached : clampFrom h.units.length p ≤ (units (passed (clampFrom h.units.length p) h.points)).length :=
    le_units_passed (Nat.min_le_right _ _)
  have hits {front more : List Nat} (split : h.points = front ++ (n.points ++ more)) (beyond : clampFrom h.units.length p ≤ (units front).length) :
      ∃ k,Occurs n.points back k ∧ (units front).length = (units (passed (clampFrom h.units.length p) h.points)).length + place unitsOf back k := by
    obtain ⟨rest,rfl⟩ := passed_front split beyond
    have same : back = rest ++ (n.points ++ more) := by
      rw [List.append_assoc] at split
      exact List.append_cancel_left (whole.symm.trans split)
    refine ⟨rest.length,occurs_split.mpr ⟨rest,more,same,rfl⟩,?_⟩
    rw [same,place_left,units_append,List.length_append]
    rfl
  generalize passed (clampFrom h.units.length p) h.points = front at *
  have bounded : Bounded (front ++ back) := whole ▸ h.bounded
  have bytes : h.header.bytes = wtf8 front ++ wtf8 back := by
    rw [← wtf8_append,← whole]
    rfl
  have offset : utf16OffsetToByteOffset h.header.bytes p.toNat = (wtf8 front).length := by
    rw [← start]
    exact utf16OffsetToByteOffset_wtf8 h.bounded _
  have found : find n.header.bytes (h.header.bytes.drop (wtf8 front).length) = (find n.points back).map (place encodeUtf8 back) := by
    rw [bytes,List.drop_left]
    exact find_wtf8 bounded.append.2 n.bounded
  have index (k : Nat) : asI32 (byteOffsetToUtf16Index h.header.bytes ((wtf8 front).length + place encodeUtf8 back k)) =
      ((units front).length + place unitsOf back k : Nat) := by
    have split : h.points = (front ++ back.take k) ++ back.drop k := by
      rw [List.append_assoc,List.take_append_drop,whole]
    have read := byteOffsetToUtf16Index_wtf8 (split ▸ h.bounded)
    rw [← split,wtf8_append,units_append,List.length_append,List.length_append] at read
    have short : (units front).length + place unitsOf back k ≤ h.units.length := by
      rw [Text.units,split,units_append,units_append,List.length_append,List.length_append]
      exact Nat.le_add_right _ _
    rw [← asI32_units h short]
    exact congrArg asI32 read
  rw [indexOfWide,fromIndex_clamped,offset,if_neg (by rw [bytes,List.length_append]; omega),found]
  cases first : find n.points back with
  | none =>
    refine .inr ⟨rfl,?_⟩
    rintro _ beyond ⟨front',more,split,rfl⟩
    obtain ⟨k,occurs,-⟩ := hits split beyond
    exact find_eq_none.mp first k occurs
  | some k =>
    obtain ⟨occurs,least⟩ := find_eq_some.mp first
    refine .inl ⟨_,index k,reached.trans (Nat.le_add_right _ _),?_,?_⟩
    · obtain ⟨middle,more,rfl,rfl⟩ := occurs_split.mp occurs
      refine ⟨front ++ middle,more,?_,?_⟩
      · rw [whole,List.append_assoc]
      · rw [place_left,units_append,List.length_append]
        rfl
    · rintro _ beyond ⟨front',more,split,rfl⟩
      obtain ⟨k',occurs',size⟩ := hits split beyond
      rw [size]
      apply Nat.add_le_add_left
      rw [place_le_iff (fun c _ => unitsOf_ne_nil c) occurs.1 occurs'.1]
      exact Nat.le_of_not_lt fun less => least k' less occurs'

end forwards

section backwards

variable (h n : JsString)

theorem place_units_le (k : Nat) : place unitsOf h.points k ≤ h.units.length := by
  have whole : (units (h.points.take k ++ h.points.drop k)).length = (units h.points).length := by
    rw [List.take_append_drop]
  rw [units_append,List.length_append] at whole
  exact (Nat.le_add_right _ _).trans_eq whole

theorem index_place (k : Nat) : asI32 (byteOffsetToUtf16Index h.header.bytes (place encodeUtf8 h.points k)) =
    place unitsOf h.points k := by
  rw [← asI32_units h (place_units_le h k)]
  exact congrArg asI32 (byteOffsetToUtf16Index_place h.bounded k)

theorem lastIndexOfWide_last (some : n.points ≠ []) :
    IsLast (OccursWhole n.points h.points) h.units.length (lastIndexOfWide h.header n.header) := by
  have found : rfind n.header.bytes h.header.bytes = (rfind n.points h.points).map (place encodeUtf8 h.points) :=
    rfind_wtf8 h.bounded n.bounded some
  rw [lastIndexOfWide,found]
  cases last : rfind n.points h.points with
  | none =>
    refine .inr ⟨rfl,fun j _ occurs => ?_⟩
    obtain ⟨k,occurs,-⟩ := occursWhole_iff.mp occurs
    exact rfind_eq_none.mp last k occurs
  | some k =>
    obtain ⟨occurs,greatest⟩ := rfind_eq_some.mp last
    refine .inl ⟨_,index_place h k,place_units_le h k,occursWhole_iff.mpr ⟨k,occurs,rfl⟩,fun j _ occurs' => ?_⟩
    obtain ⟨k',fits,rfl⟩ := occursWhole_iff.mp occurs'
    rw [place_le_iff (fun c _ => unitsOf_ne_nil c) fits.1 occurs.1]
    exact Nat.le_of_not_lt fun less => greatest k' less fits

/-- The walk over matches in ascending order keeps the last one that is not beyond the position. -/
theorem bestMatch_cases {bytes : List UInt8} {stop : Nat} (best : Int) {ms : List Nat}
    (sorted : (ms.map (byteOffsetToUtf16Index bytes)).Pairwise (· < ·))
    (exact : ∀ m ∈ ms,asI32 (byteOffsetToUtf16Index bytes m) = byteOffsetToUtf16Index bytes m) :
    (bestMatch bytes stop best ms = best ∧ ∀ i ∈ ms.map (byteOffsetToUtf16Index bytes),stop < i) ∨
      ∃ i ∈ ms.map (byteOffsetToUtf16Index bytes),bestMatch bytes stop best ms = i ∧ i ≤ stop ∧
        ∀ j ∈ ms.map (byteOffsetToUtf16Index bytes),j ≤ stop → j ≤ i := by
  induction ms generalizing best with
  | nil => exact .inl ⟨rfl,List.forall_mem_nil _⟩
  | cons m ms ih =>
    rw [List.map_cons,List.pairwise_cons] at sorted
    obtain ⟨first,others⟩ := List.forall_mem_cons.mp exact
    rw [bestMatch,List.map_cons]
    split_ifs with within
    · refine .inr ?_
      obtain ⟨kept,beyond⟩ | ⟨i,member,result,before,greatest⟩ := ih (asI32 (byteOffsetToUtf16Index bytes m)) sorted.2 others
      · refine ⟨_,List.mem_cons_self,kept.trans first,within,fun j member before => ?_⟩
        obtain rfl | member := List.mem_cons.mp member
        · exact Nat.le_refl _
        · exact absurd before (Nat.not_le.mpr (beyond j member))
      · refine ⟨i,List.mem_cons_of_mem _ member,result,before,fun j member' before' => ?_⟩
        obtain rfl | member' := List.mem_cons.mp member'
        · exact (sorted.1 i member).le
        · exact greatest j member' before'
    · refine .inl ⟨rfl,List.forall_mem_cons.mpr ⟨Nat.lt_of_not_le within,fun i member => ?_⟩⟩
      exact (Nat.lt_of_not_le within).trans (sorted.1 i member)

theorem bestMatch_last (some : n.points ≠ []) (stop : Nat) :
    IsLast (OccursApart n.points h.points) stop (bestMatch h.header.bytes stop (-1) (matchIndices n.header.bytes h.header.bytes)) := by
  have mapped : (matchIndices n.header.bytes h.header.bytes).map (byteOffsetToUtf16Index h.header.bytes) =
      (matchIndices n.points h.points).map (place unitsOf h.points) := by
    have same : matchIndices n.header.bytes h.header.bytes = (matchIndices n.points h.points).map (place encodeUtf8 h.points) :=
      matchIndices_wtf8 h.bounded n.bounded some
    rw [same,List.map_map]
    exact List.map_congr_left fun k _ => byteOffsetToUtf16Index_place h.bounded k
  have sorted : ((matchIndices n.points h.points).map (place unitsOf h.points)).Pairwise (· < ·) := by
    rw [List.pairwise_map]
    refine (matchIndices_sorted _ _).imp_of_mem fun _ later less => place_lt (fun c _ => unitsOf_ne_nil c) less ?_
    exact (occurs_of_mem_matchIndices later).1
  have exact (m : Nat) (member : m ∈ matchIndices n.header.bytes h.header.bytes) :
      asI32 (byteOffsetToUtf16Index h.header.bytes m) = byteOffsetToUtf16Index h.header.bytes m := by
    have place_mem := mapped ▸ List.mem_map_of_mem (f := byteOffsetToUtf16Index h.header.bytes) member
    obtain ⟨k,-,size⟩ := List.mem_map.mp place_mem
    rw [← size]
    exact asI32_units h (place_units_le h k)
  have walked := @bestMatch_cases _ stop (-1) _ (mapped.symm ▸ sorted) exact
  rw [mapped] at walked
  obtain ⟨none,beyond⟩ | ⟨i,member,result,before,greatest⟩ := walked
  · refine .inr ⟨none,?_⟩
    rintro _ before ⟨k,member,rfl⟩
    exact absurd before (Nat.not_le.mpr (beyond _ (List.mem_map_of_mem member)))
  · refine .inl ⟨i,result,before,List.mem_map.mp member,?_⟩
    rintro _ before' ⟨k,member',rfl⟩
    exact greatest _ (List.mem_map_of_mem member') before'

theorem pos16_eq (len : Nat) (position : F64) : pos16 len position = clampTo len position := by
  cases position with
  | nan => rfl
  | infinite negative => rfl
  | finite d =>
    rw [pos16,clampTo]
    split_ifs with beyond below
    · have floor : (len : Int) ≤ ⌊d.value⌋ := Int.le_floor.mpr (by exact_mod_cast beyond)
      omega
    · have floor : ⌊d.value⌋ ≤ 0 := by exact_mod_cast (Int.floor_le d.value).trans below
      omega
    · have floor : ⌊d.value⌋ < len := Int.floor_lt.mpr (by exact_mod_cast lt_of_not_ge beyond)
      omega

theorem clampTo_le (len : Nat) (position : F64) : clampTo len position ≤ len := by
  cases position with
  | nan => exact Nat.le_refl _
  | infinite negative => cases negative <;> simp [clampTo]
  | finite d => exact Nat.min_le_right _ _

end backwards

section paths

variable {h : JsString} (n : JsString) (ascii : ∀ c ∈ h.points,c < 0x80)

include ascii

theorem length_bytes_ascii : h.header.bytes.length = h.units.length := ((length_units_eq h.points).2.mpr ascii).symm

theorem place_ascii {b : Nat} (inside : b ≤ h.units.length) : place encodeUtf8 h.points b = b ∧ place unitsOf h.points b = b := by
  have some : ∀ c ∈ h.points.take b,c < 0x80 := fun c member => ascii c (List.mem_of_mem_take member)
  have size : (h.points.take b).length = b := by
    rw [Text.units,units_ascii ascii] at inside
    exact List.length_take_of_le inside
  constructor
  · change (wtf8 (h.points.take b)).length = b
    rw [wtf8_ascii some,List.length_map,size]
  · change (units (h.points.take b)).length = b
    rw [units_ascii some,size]

theorem byteOffsetToUtf16Index_ascii {b : Nat} (inside : b ≤ h.units.length) : byteOffsetToUtf16Index h.header.bytes b = b := by
  obtain ⟨left,right⟩ := place_ascii ascii inside
  have read := byteOffsetToUtf16Index_place h.bounded b
  rw [left,right] at read
  exact read

theorem utf16OffsetToByteOffset_ascii (start : Nat) : utf16OffsetToByteOffset h.header.bytes start = min start h.units.length := by
  obtain ⟨left,-⟩ := place_ascii ascii (Nat.min_le_right start h.units.length)
  have offset : utf16OffsetToByteOffset h.header.bytes start = (wtf8 (passed start h.points)).length :=
    utf16OffsetToByteOffset_wtf8 h.bounded start
  rw [offset,← passed_min,passed_ascii ascii]
  exact left

theorem indexOfAscii_eq (p : Int) : indexOfAscii h.header n.header p = indexOfWide h.header n.header p := by
  rw [indexOfAscii,indexOfWide,fromIndex_clamped,utf16OffsetToByteOffset_ascii ascii,length_bytes_ascii ascii]
  rw [if_neg (Nat.not_lt.mpr (Nat.min_le_right _ _))]
  split_ifs with empty long
  · rw [List.length_eq_zero_iff.mp empty,find_nil]
    dsimp only
    rw [Nat.add_zero,byteOffsetToUtf16Index_ascii ascii (Nat.min_le_right _ _)]
  · have none : find n.header.bytes (h.header.bytes.drop (min p.toNat h.units.length)) = none := by
      rw [find_eq_none]
      intro i occurs
      have fits := occurs.fits
      rw [List.length_drop,length_bytes_ascii ascii] at fits
      omega
    rw [none]
  · rw [Nat.min_eq_left (by omega)]
    cases found : find n.header.bytes (h.header.bytes.drop p.toNat) with
    | none => rfl
    | some pos =>
      have inside := (find_eq_some.mp found).1.1
      rw [List.length_drop,length_bytes_ascii ascii] at inside
      dsimp only
      rw [byteOffsetToUtf16Index_ascii ascii (by omega)]

theorem lastIndexOfAscii_eq : lastIndexOfAscii h.header n.header = lastIndexOfWide h.header n.header := by
  rw [lastIndexOfAscii,lastIndexOfWide]
  split_ifs with long
  · have none : rfind n.header.bytes h.header.bytes = none := by
      rw [rfind_eq_none]
      intro i occurs
      have fits := occurs.fits
      omega
    rw [none]
  · cases found : rfind n.header.bytes h.header.bytes with
    | none => rfl
    | some pos =>
      have inside := (rfind_eq_some.mp found).1.1
      rw [length_bytes_ascii ascii] at inside
      dsimp only
      rw [byteOffsetToUtf16Index_ascii ascii inside]

end paths

section functions

variable (h n : JsString)

theorem jsStringIndexOfFrom_eq (p : Int) : jsStringIndexOfFrom h.header n.header p = indexOfWide h.header n.header p := by
  rw [jsStringIndexOfFrom,h.isAsciiString_header]
  split_ifs with plain
  · exact indexOfAscii_eq n (of_decide_eq_true plain) p
  · rfl

theorem bytes_length_eq_zero : n.header.bytes.length = 0 ↔ n.points = [] := by
  rw [List.length_eq_zero_iff]
  constructor
  · intro empty
    exact wtf8_injective n.bounded (List.forall_mem_nil _) empty
  · intro empty
    change wtf8 n.points = []
    rw [empty]
    rfl

theorem jsStringLastIndexOf_last :
    IsLast (OccursWhole n.points h.points) h.units.length (jsStringLastIndexOf h.header n.header) := by
  rw [jsStringLastIndexOf]
  split_ifs with empty plain
  · refine .inl ⟨h.units.length,asI32_units h (Nat.le_refl _),Nat.le_refl _,⟨h.points,[],?_,rfl⟩,fun j before _ => before⟩
    rw [(bytes_length_eq_zero n).mp empty]
    exact (List.append_nil _).symm
  · rw [h.isAsciiString_header] at plain
    rw [lastIndexOfAscii_eq n (of_decide_eq_true plain)]
    exact lastIndexOfWide_last h n fun none => empty ((bytes_length_eq_zero n).mpr none)
  · exact lastIndexOfWide_last h n fun none => empty ((bytes_length_eq_zero n).mpr none)

theorem jsStringLastIndexOfFrom_iff (position : F64) {hasPos : Int} (given : hasPos ≠ 0) :
    IsLast (Occurs n.units h.units) (clampTo h.units.length position) (jsStringLastIndexOfFrom h.header n.header position hasPos) ↔
      n.points = [] ∨ ∀ i,i ≤ clampTo h.units.length position → Occurs n.units h.units i →
        ∃ j,j ≤ clampTo h.units.length position ∧ i ≤ j ∧ OccursApart n.points h.points j := by
  have stop : pos16 h.header.utf16Len position = clampTo h.units.length position := pos16_eq _ position
  rw [jsStringLastIndexOfFrom,if_neg given,stop]
  dsimp only
  split_ifs with empty
  · rw [bytes_length_eq_zero] at empty
    refine iff_of_true (.inl ⟨_,asI32_units h (clampTo_le _ _),Nat.le_refl _,⟨clampTo_le _ _,?_⟩,fun j before _ => before⟩) (.inl empty)
    rw [Text.units,empty]
    exact List.nil_prefix
  · rw [bytes_length_eq_zero] at empty
    rw [or_iff_right empty]
    exact isLast_iff (fun i occurs => occurs.whole.units) (bestMatch_last h n empty _)

/-- When the searches find the right occurrence, and that the two paths never differ. -/
theorem searches_exact (p : Int) (position : F64) :
    (IsFirst (Occurs n.units h.units) (clampFrom h.units.length p) (jsStringIndexOfFrom h.header n.header p) ↔
      ∀ i,clampFrom h.units.length p ≤ i → Occurs n.units h.units i →
        ∃ j,clampFrom h.units.length p ≤ j ∧ j ≤ i ∧ OccursWhole n.points h.points j) ∧
    (IsLast (Occurs n.units h.units) h.units.length (jsStringLastIndexOfFrom h.header n.header position 0) ↔
      ∀ i,i ≤ h.units.length → Occurs n.units h.units i →
        ∃ j,j ≤ h.units.length ∧ i ≤ j ∧ OccursWhole n.points h.points j) ∧
    (∀ hasPos : Int,hasPos ≠ 0 →
      (IsLast (Occurs n.units h.units) (clampTo h.units.length position)
          (jsStringLastIndexOfFrom h.header n.header position hasPos) ↔
        n.points = [] ∨ ∀ i,i ≤ clampTo h.units.length position → Occurs n.units h.units i →
          ∃ j,j ≤ clampTo h.units.length position ∧ i ≤ j ∧ OccursApart n.points h.points j)) ∧
    (isAsciiString h.header = true → indexOfAscii h.header n.header p = indexOfWide h.header n.header p ∧
      lastIndexOfAscii h.header n.header = lastIndexOfWide h.header n.header) := by
  refine ⟨?_,?_,fun hasPos given => jsStringLastIndexOfFrom_iff h n position given,fun plain => ?_⟩
  · rw [jsStringIndexOfFrom_eq]
    exact isFirst_iff (fun i occurs => occurs.units) (indexOfWide_first h n p)
  · rw [jsStringLastIndexOfFrom,if_pos rfl]
    exact isLast_iff (fun i occurs => occurs.units) (jsStringLastIndexOf_last h n)
  · rw [h.isAsciiString_header] at plain
    have ascii := of_decide_eq_true plain
    exact ⟨indexOfAscii_eq n ascii p,lastIndexOfAscii_eq n ascii⟩

end functions

def noLetter : JsString := ⟨.empty,by decide⟩

def twoLetters : JsString := ⟨⟨[0x61,0x61],by decide,by decide⟩,by decide⟩

def threeLetters : JsString := ⟨⟨[0x61,0x61,0x61],by decide,by decide⟩,by decide⟩

def one : F64 := .finite (.whole false 1 (by decide))

/-- A half of a pair is not found, a match that overlaps another is passed over, and the empty
needle is found behind a pair instead of within it. -/
theorem searches_miss :
    ¬ IsFirst (Occurs loneHigh.units grinning.units) (clampFrom 2 0) (jsStringIndexOfFrom grinning.header loneHigh.header 0) ∧
    ¬ IsLast (Occurs twoLetters.units threeLetters.units) (clampTo 3 one)
      (jsStringLastIndexOfFrom threeLetters.header twoLetters.header one 1) ∧
    ¬ IsFirst (Occurs noLetter.units grinning.units) (clampFrom 2 1) (jsStringIndexOfFrom grinning.header noLetter.header 1) := by
  have stop : clampTo 3 one = 1 := by
    simp [clampTo,one,Words.Double.value_whole]
  have half : jsStringIndexOfFrom grinning.header loneHigh.header 0 = -1 := by decide
  have behind : jsStringIndexOfFrom grinning.header noLetter.header 1 = 2 := by decide
  have passed_over : jsStringLastIndexOfFrom threeLetters.header twoLetters.header one 1 = 0 := by
    have size : threeLetters.header.utf16Len = 3 := rfl
    rw [jsStringLastIndexOfFrom,if_neg (by decide),size,pos16_eq,stop]
    decide
  rw [half,behind,passed_over,stop]
  refine ⟨?_,?_,?_⟩
  · rintro (⟨i,same,-⟩ | ⟨-,none⟩)
    · omega
    · exact none 0 (by decide) (by decide)
  · rintro (⟨i,same,-,-,greatest⟩ | ⟨missing,-⟩)
    · have later := greatest 1 (by decide) (by decide)
      omega
    · omega
  · rintro (⟨i,same,-,-,least⟩ | ⟨missing,-⟩)
    · have sooner := least 1 (by decide) (by decide)
      omega
    · omega

end Perry.Strings
