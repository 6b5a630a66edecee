import Perry.Strings.Split

/-! One part of a split read on its own is the element of the array, for any bytes, unless the
delimiter is empty and four bytes are announced for a code point that has no two halves. -/
namespace Perry.Strings

open Containers Unicode

section scans

variable {found : Nat → Bool} {width length target partStart partIndex scan : Nat} {places : List Nat}

/-- The scan finds the stretch of its index between the places where the delimiter is found. -/
theorem scanPart_eq (wide : 0 < width) (sorted : places.Pairwise (· < ·)) (all : ∀ i,i ∈ places ↔ found i = true ∧ i + width ≤ length)
    (ahead : partIndex ≤ target) : scanPart found width length target partStart partIndex scan =
      (stretches width length partStart (separate width scan places))[target - partIndex]? := by
  fun_induction scanPart found width length target partStart partIndex scan with
  | case1 partStart scan inside hit =>
    rw [separate_present wide sorted ((all scan).mpr ⟨hit,inside.1⟩),stretches,Nat.sub_self,List.getElem?_cons_zero]
  | case2 partStart partIndex scan inside hit other ih =>
    obtain ⟨n,rfl⟩ := Nat.exists_eq_add_of_lt (Nat.lt_of_le_of_ne ahead other)
    have one : partIndex + n + 1 - partIndex = partIndex + n + 1 - (partIndex + 1) + 1 := by omega
    rw [separate_present wide sorted ((all scan).mpr ⟨hit,inside.1⟩),stretches,ih (by omega),one,List.getElem?_cons_succ]
  | case3 partStart partIndex scan inside miss ih =>
    rw [separate_absent fun member => miss ((all scan).mp member).1,ih ahead]
  | case4 partStart scan outside =>
    rw [separate_beyond,stretches,Nat.sub_self,List.getElem?_cons_zero]
    intro i member
    have fits := ((all i).mp member).2
    omega
  | case5 partStart partIndex scan outside other =>
    rw [separate_beyond,stretches,List.getElem?_eq_none]
    · rw [List.length_singleton]
      omega
    · intro i member
      have fits := ((all i).mp member).2
      omega

theorem splitPartByteRange_eq (source : List UInt8) {delimiter : List UInt8} (some : delimiter ≠ []) (target : Nat) :
    splitPartByteRange source delimiter target = (splitRanges delimiter source)[target]? := by
  refine scanPart_eq (List.length_pos_of_ne_nil some) (occurrences_sorted _ _) (fun i => ?_) (Nat.zero_le _)
  rw [mem_occurrences,List.isPrefixOf_iff_prefix]
  constructor
  · exact fun occurs => ⟨occurs.2,occurs.fits⟩
  · exact fun ⟨here,fits⟩ => ⟨by omega,here⟩

theorem mem_splitRanges {needle hay : List UInt8} {range : Nat × Nat} (member : range ∈ splitRanges needle hay) :
    range.2 ≤ hay.length := by
  have inside : ∀ i ∈ matchIndices needle hay,i ≤ hay.length := fun i member => (occurs_of_mem_matchIndices member).1
  rw [splitRanges] at member
  generalize 0 = start at member
  generalize matchIndices needle hay = places at inside member
  induction places generalizing start with
  | nil =>
    rw [List.mem_singleton.mp member]
  | cons i places ih =>
    obtain ⟨first,others⟩ := List.forall_mem_cons.mp inside
    obtain rfl | member := List.mem_cons.mp member
    · exact first
    · exact ih _ others member

end scans

section walks

variable {bytes : List UInt8} {b : UInt8} {rest : List UInt8}

theorem sequencesAfter_eq (skip : Nat) (bytes : List UInt8) : sequencesAfter skip bytes = sequences (bytes.drop skip) := by
  induction bytes generalizing skip with
  | nil => cases skip <;> rfl
  | cons b bytes ih =>
    cases skip with
    | zero => rfl
    | succ skip => exact ih skip

theorem wtf8StepsAfter_eq (skip : Nat) (bytes : List UInt8) : wtf8StepsAfter skip bytes = wtf8Steps (bytes.drop skip) := by
  induction bytes generalizing skip with
  | nil => cases skip <;> rfl
  | cons b bytes ih =>
    cases skip with
    | zero => rfl
    | succ skip => exact ih skip

theorem sequences_cons (b : UInt8) (rest : List UInt8) : sequences (b :: rest) =
    (wtf8Step b rest,(b :: rest).take (wtf8Step b rest).advance) :: sequences (rest.drop ((wtf8Step b rest).advance - 1)) := by
  rw [← sequencesAfter_eq]
  rfl

theorem wtf8Steps_cons (b : UInt8) (rest : List UInt8) :
    wtf8Steps (b :: rest) = wtf8Step b rest :: wtf8Steps (rest.drop ((wtf8Step b rest).advance - 1)) := by
  rw [← wtf8StepsAfter_eq]
  rfl

theorem advance_pos (b : UInt8) (rest : List UInt8) : 0 < (wtf8Step b rest).advance := by
  unfold wtf8Step
  split_ifs <;> dsimp only <;> omega

/-- What the first byte says does not depend on those behind it. -/
theorem wtf8Step_shape (b : UInt8) (rest rest' : List UInt8) :
    (wtf8Step b rest).advance = (wtf8Step b rest').advance ∧ (wtf8Step b rest).units = (wtf8Step b rest').units := by
  unfold wtf8Step
  split_ifs <;> exact ⟨rfl,rfl⟩

/-- The step is determined by the bytes it is over. -/
theorem wtf8Step_append {front : List UInt8} (whole : front.length + 1 = (wtf8Step b front).advance) (rest : List UInt8) :
    wtf8Step b (front ++ rest) = wtf8Step b front := by
  have read {i : Nat} (inside : i < front.length) : (front ++ rest).getD i 0 = front.getD i 0 := by
    rw [List.getD_eq_getElem?_getD,List.getElem?_append_left inside,List.getD_eq_getElem?_getD]
  unfold wtf8Step at whole ⊢
  split_ifs at whole ⊢
  · rfl
  · rfl
  · dsimp only at whole ⊢
    rw [read (by omega)]
  · dsimp only at whole ⊢
    rw [read (by omega),read (by omega)]
  · dsimp only at whole ⊢
    rw [read (by omega),read (by omega),read (by omega)]

theorem map_fst_sequences (bytes : List UInt8) : (sequences bytes).map Prod.fst = wtf8Steps bytes := by
  suffices ∀ skip,(sequencesAfter skip bytes).map Prod.fst = wtf8StepsAfter skip bytes from this 0
  induction bytes with
  | nil => intro skip; cases skip <;> rfl
  | cons b bytes ih =>
    intro skip
    cases skip with
    | zero => exact congrArg (wtf8Step b bytes :: ·) (ih _)
    | succ skip => exact ih skip

theorem mem_sequences {sequence : Wtf8Step × List UInt8} (member : sequence ∈ sequences bytes) :
    ∃ b rest,sequence = (wtf8Step b rest,(b :: rest).take (wtf8Step b rest).advance) := by
  suffices ∀ skip,sequence ∈ sequencesAfter skip bytes → _ from this 0 member
  clear member
  induction bytes with
  | nil => intro skip member; cases skip <;> cases member
  | cons b bytes ih =>
    intro skip member
    cases skip with
    | zero =>
      obtain rfl | member := List.mem_cons.mp member
      · exact ⟨b,bytes,rfl⟩
      · exact ih _ member
    | succ skip => exact ih skip member

/-- All bytes are spelled by the walk. -/
theorem units_sequence {sequence : Wtf8Step × List UInt8} (member : sequence ∈ sequences bytes) :
    computeUtf16LenWtf8 sequence.2 = sequence.1.units := by
  obtain ⟨b,rest,rfl⟩ := mem_sequences member
  obtain ⟨n,advance⟩ := Nat.exists_eq_add_one_of_ne_zero (advance_pos b rest).ne'
  dsimp only
  have shape := wtf8Step_shape b (rest.take n) rest
  rw [advance,List.take_succ_cons,computeUtf16LenWtf8_eq,wtf8Steps_cons,shape.1,advance,Nat.add_sub_cancel,
    List.drop_eq_nil_of_le (List.length_take_le _ _),List.map_cons,List.sum_cons,shape.2]
  rfl

end walks

section valid

variable {b : UInt8} {rest : List UInt8} {c : Nat}

theorem fitting_full {ranges : List (Nat × Nat)} {rest : List UInt8} (full : fitting ranges rest = ranges.length) :
    List.Forall₂ Within ranges (rest.take ranges.length) := by
  induction ranges generalizing rest with
  | nil => exact .nil
  | cons r ranges ih =>
    cases rest with
    | nil => cases full
    | cons b rest =>
      rw [fitting] at full
      split_ifs at full with within
      exact .cons within (ih (Nat.succ_inj.mp full))

theorem wtf8Step_advance (b : UInt8) (rest : List UInt8) : (wtf8Step b rest).advance =
    if b.toNat < 0xC0 then 1 else if b.toNat < 0xE0 then 2 else if b.toNat < 0xF0 then 3 else 4 := by
  unfold wtf8Step
  split_ifs <;> first | rfl | omega

theorem wtf8Step_units (b : UInt8) (rest : List UInt8) : (wtf8Step b rest).units =
    if b.toNat < 0x80 then 1 else if b.toNat < 0xC0 then 0 else if b.toNat < 0xF0 then 1 else 2 := by
  unfold wtf8Step
  split_ifs <;> first | rfl | omega

/-- The code point of a sequence is in the plane that its length says. -/
theorem codePoint_plane {ranges : List (Nat × Nat)} {conts : List UInt8} (leads : followers b = some ranges)
    (fits : List.Forall₂ Within ranges conts) : (ranges.length + 1 =
      if b.toNat < 0xC0 then 1 else if b.toNat < 0xE0 then 2 else if b.toNat < 0xF0 then 3 else 4) ∧
      (b.toNat < 0x80 ∨ 0xC0 ≤ b.toNat) ∧ (codePoint (b :: conts) < 0x10000 ↔ b.toNat < 0xF0) := by
  unfold followers at leads
  split_ifs at leads with one two three four five six seven eight nine
  all_goals obtain rfl := Option.some_inj.mp leads
  · cases fits
    refine ⟨?_,.inl one,?_⟩
    · rw [if_pos (by omega)]
      rfl
    · rw [codePoint]
      omega
  · obtain _ | ⟨-,⟨⟩⟩ := fits
    refine ⟨?_,.inr (by omega),?_⟩
    · rw [if_neg (by omega),if_pos (by omega)]
      rfl
    · rw [codePoint]
      omega
  iterate 3
    obtain _ | ⟨-,_ | ⟨-,⟨⟩⟩⟩ := fits
    refine ⟨?_,.inr (by omega),?_⟩
    · rw [if_neg (by omega),if_neg (by omega),if_pos (by omega)]
      rfl
    · rw [codePoint]
      omega
  all_goals
    obtain _ | ⟨second,_ | ⟨-,_ | ⟨-,⟨⟩⟩⟩⟩ := fits
    refine ⟨?_,.inr (by omega),?_⟩
    · rw [if_neg (by omega),if_neg (by omega),if_neg (by omega)]
      rfl
    · rw [Within] at second
      rw [codePoint]
      omega

/-- A sequence of UTF-8 has the length and the units that its first byte announces to the walk. -/
theorem sequence_shape (spelled : Unicode.sequence b rest = some c) :
    extent b rest = (wtf8Step b rest).advance - 1 ∧ (unitsOf c).length = (wtf8Step b rest).units := by
  rw [wtf8Step_advance,wtf8Step_units]
  cases leads : followers b with
  | none =>
    rw [Unicode.sequence,leads] at spelled
    cases spelled
  | some ranges =>
    have matched : extent b rest = fitting ranges rest := by
      rw [extent,leads]
      rfl
    rw [Unicode.sequence,leads,Option.map_some] at spelled
    split_ifs at spelled with full
    have long : ranges.length = extent b rest := Option.some_inj.mp full
    obtain ⟨length,first,plane⟩ := codePoint_plane leads (fitting_full (matched.symm.trans long.symm))
    have size := length_unitsOf_cases c
    rw [long,Option.some_inj.mp spelled] at plane
    constructor
    · rw [← length,← long,Nat.add_sub_cancel]
    · split_ifs <;> omega

theorem computeUtf16LenWtf8_cons (b : UInt8) (rest : List UInt8) : computeUtf16LenWtf8 (b :: rest) =
    (wtf8Step b rest).units + computeUtf16LenWtf8 (rest.drop ((wtf8Step b rest).advance - 1)) := by
  rw [computeUtf16LenWtf8_eq,wtf8Steps_cons,List.map_cons,List.sum_cons,computeUtf16LenWtf8_eq]

theorem units_valid {bytes : List UInt8} (valid : (parts bytes).all Option.isSome = true) :
    (units (fromUtf8Lossy bytes)).length = computeUtf16LenWtf8 bytes := by
  induction size : bytes.length using Nat.strong_induction_on generalizing bytes with
  | h n ih =>
    cases bytes with
    | nil => rfl
    | cons b rest =>
      rw [parts_cons,List.all_cons,Bool.and_eq_true] at valid
      obtain ⟨c,spelled⟩ := Option.isSome_iff_exists.mp valid.1
      obtain ⟨long,unit⟩ := sequence_shape spelled
      have shorter : (rest.drop (extent b rest)).length < n := by
        rw [List.length_drop,← size,List.length_cons]
        omega
      have later := ih _ shorter valid.2 rfl
      rw [fromUtf8Lossy,parts_cons,spelled,List.map_cons,render,Option.getD_some,units_cons,List.length_append,unit,
        computeUtf16LenWtf8_cons,← long,← later]
      rfl

/-- Both ways of counting units agree on any bytes. -/
theorem computeUtf16Len_eq (bytes : List UInt8) : computeUtf16Len bytes = computeUtf16LenWtf8 bytes := by
  rw [computeUtf16Len]
  split_ifs with ascii
  · induction bytes with
    | nil => rfl
    | cons b bytes ih =>
      rw [allAscii,List.all_cons,Bool.and_eq_true,decide_eq_true_iff] at ascii
      have step : wtf8Step b bytes = ⟨1,1,b.toNat⟩ := by rw [wtf8Step,if_pos ascii.1]
      rw [computeUtf16LenWtf8_cons,step,List.length_cons,ih ascii.2,Nat.add_comm]
      rfl
  · cases decoded : fromUtf8 bytes with
    | none => rfl
    | some points =>
      rw [fromUtf8] at decoded
      split_ifs at decoded with valid
      rw [← Option.some_inj.mp decoded]
      exact units_valid valid

end valid

section emptyDelimiter

/-- What the array gets for a sequence. -/
def emitted (lone : Bool) (sequence : Wtf8Step × List UInt8) : List StringHeader :=
  if isAstral sequence.1 then [stringFromCodeUnit (highHalf sequence.1),stringFromCodeUnit (lowHalf sequence.1)]
  else [stringFromSequence lone sequence.2]

/-- What is read of a sequence one part at a time, with the units of the part. -/
def reported (lone : Bool) (sequence : Wtf8Step × List UInt8) : List (StringHeader × Nat) :=
  if isAstral sequence.1 then [(stringFromCodeUnit (highHalf sequence.1),1),(stringFromCodeUnit (lowHalf sequence.1),1)]
  else List.replicate (max sequence.1.units 1) (stringFromSequence lone sequence.2,sequence.1.units)

def partValue (lone : Bool) : EmptyDelimiterPart → StringHeader
  | .surrogate unit => stringFromCodeUnit unit
  | .bytes seq => stringFromSequence lone seq

variable (lone : Bool)

theorem isAstral_units {step : Wtf8Step} (astral : isAstral step = true) : step.units = 2 ∧ 0x10000 ≤ step.codePoint :=
  of_decide_eq_true astral

theorem length_reported (sequence : Wtf8Step × List UInt8) : (reported lone sequence).length = max sequence.1.units 1 := by
  unfold reported
  split_ifs with astral
  · rw [(isAstral_units astral).1]
    rfl
  · exact List.length_replicate

theorem length_emitted_le (sequence : Wtf8Step × List UInt8) : (emitted lone sequence).length ≤ max sequence.1.units 1 := by
  unfold emitted
  split_ifs with astral
  · rw [(isAstral_units astral).1]
    exact Nat.le_refl _
  · exact Nat.le_max_right _ _

theorem countUnits_unlimited (units n : Nat) : countUnits (-1) units n = (n + units,false) := by
  induction units generalizing n with
  | zero => rfl
  | succ units ih =>
    rw [countUnits,if_neg (by omega),ih,Nat.add_right_comm]
    rfl

theorem countParts_unlimited (n : Nat) (walk : List (Wtf8Step × List UInt8)) :
    countParts (-1) n walk = n + (walk.flatMap (reported lone)).length := by
  induction walk generalizing n with
  | nil => rfl
  | cons sequence walk ih =>
    rw [countParts,countUnits_unlimited,List.flatMap_cons,List.length_append,length_reported]
    dsimp only
    rw [if_neg Bool.false_ne_true,ih,Nat.add_assoc]

theorem fillParts_eq (n : Nat) (pending : Option Nat) (walk : List (Wtf8Step × List UInt8)) :
    fillParts lone n pending walk = (pending.toList.map stringFromCodeUnit ++ walk.flatMap (emitted lone)).take n := by
  induction n generalizing pending walk with
  | zero => rfl
  | succ n ih =>
    cases pending with
    | some unit =>
      rw [fillParts,ih]
      rfl
    | none =>
      cases walk with
      | nil => rfl
      | cons sequence walk =>
        rw [fillParts,List.flatMap_cons,emitted]
        split_ifs with astral
        · rw [ih]
          rfl
        · rw [ih]
          rfl

theorem emptyDelimiterPart_eq (walk : List (Wtf8Step × List UInt8)) (k : Nat) :
    (emptyDelimiterPart walk k).map (fun part => (partValue lone part.1,part.2)) = (walk.flatMap (reported lone))[k]? := by
  induction walk generalizing k with
  | nil => rfl
  | cons sequence walk ih =>
    rw [emptyDelimiterPart,List.flatMap_cons]
    have size := length_reported lone sequence
    split_ifs with inside astral zero
    · rw [List.getElem?_append_left (by rw [size]; exact inside),reported,if_pos astral,zero,List.getElem?_cons_zero,
        Option.map_some,partValue]
    · rw [(isAstral_units astral).1] at inside
      have one : k = 0 + 1 := by omega
      rw [List.getElem?_append_left (by rw [size,(isAstral_units astral).1]; exact inside),reported,if_pos astral,one,
        List.getElem?_cons_succ,List.getElem?_cons_zero,Option.map_some,partValue]
    · rw [List.getElem?_append_left (by rw [size]; exact inside),reported,if_neg astral,List.getElem?_replicate,if_pos inside,
        Option.map_some,partValue]
    · rw [List.getElem?_append_right (by rw [size]; omega),size,ih]

theorem length_emitted_flatMap (walk : List (Wtf8Step × List UInt8)) :
    (walk.flatMap (emitted lone)).length ≤ (walk.flatMap (reported lone)).length := by
  rw [List.length_flatMap,List.length_flatMap]
  apply List.sum_le_sum
  intro sequence _
  rw [length_reported]
  exact length_emitted_le lone sequence

/-- The array of a split between units has all parts of all sequences. -/
theorem jsStringSplit_empty {s delimiter : StringHeader} (empty : delimiter.bytes = []) :
    jsStringSplit s delimiter = (sequences s.bytes).flatMap (emitted (hasLoneSurrogates s)) := by
  have yes : delimiter.bytes.isEmpty = true := by rw [empty]; rfl
  rw [jsStringSplit,jsStringSplitN,if_neg (by decide),if_pos yes,fillParts_eq,countParts_unlimited (hasLoneSurrogates s),Nat.zero_add]
  exact List.take_of_length_le (length_emitted_flatMap _ _)

theorem jsStringSplitPartValue_empty {s delimiter : StringHeader} (empty : delimiter.bytes = []) (k : Nat) :
    jsStringSplitPartValue s delimiter k =
      (((sequences s.bytes).flatMap (reported (hasLoneSurrogates s)))[k]?).map Prod.fst := by
  have yes : delimiter.bytes.isEmpty = true := by rw [empty]; rfl
  rw [jsStringSplitPartValue,if_neg (by omega),if_pos yes,← emptyDelimiterPart_eq,Int.toNat_natCast]
  cases emptyDelimiterPart (sequences s.bytes) k with
  | none => rfl
  | some part =>
    obtain ⟨part,units⟩ := part
    cases part <;> rfl

theorem jsStringSplitPartUtf16Length_empty {s delimiter : StringHeader} (empty : delimiter.bytes = []) (k : Nat) :
    jsStringSplitPartUtf16Length s delimiter k =
      ((((sequences s.bytes).flatMap (reported lone))[k]?).map Prod.snd).getD 0 := by
  have yes : delimiter.bytes.isEmpty = true := by rw [empty]; rfl
  rw [jsStringSplitPartUtf16Length,if_neg (by omega),if_pos yes,← emptyDelimiterPart_eq,Int.toNat_natCast]
  cases emptyDelimiterPart (sequences s.bytes) k <;> rfl

end emptyDelimiter

section halves

variable {unit : Nat}

theorem utf16Len_stringFromCodeUnit (small : unit < 0x10000) : (stringFromCodeUnit unit).utf16Len = 1 := by
  have bounded : Bounded [unit] := List.forall_mem_singleton.mpr (by omega)
  have counted : computeUtf16LenWtf8 (wtf8 [unit]) = 1 := by
    rw [computeUtf16LenWtf8_wtf8 bounded,units_cons,List.length_append,unitsOf,if_pos small]
    rfl
  rw [wtf8_cons,wtf8_nil,List.append_nil] at counted
  unfold stringFromCodeUnit
  split_ifs
  · rfl
  · exact counted
  · exact (computeUtf16Len_eq _).trans counted

theorem utf16Len_stringFromSequence (lone : Bool) (seq : List UInt8) :
    (stringFromSequence lone seq).utf16Len = computeUtf16LenWtf8 seq := by
  unfold stringFromSequence
  split_ifs
  · rfl
  · exact computeUtf16Len_eq seq

theorem codePoint_lt (b : UInt8) (rest : List UInt8) : (wtf8Step b rest).codePoint < 0x200000 := by
  unfold wtf8Step
  split_ifs <;> dsimp only <;> omega

theorem halves_lt {step : Wtf8Step} (bound : step.codePoint < 0x200000) : highHalf step < 0x10000 ∧ lowHalf step < 0x10000 := by
  unfold highHalf lowHalf
  omega

/-- The units that are reported for a part are those of its header. -/
theorem utf16Len_reported {bytes : List UInt8} {lone : Bool} {part : StringHeader × Nat}
    (member : part ∈ (sequences bytes).flatMap (reported lone)) : part.1.utf16Len = part.2 := by
  obtain ⟨sequence,inside,member⟩ := List.mem_flatMap.mp member
  unfold reported at member
  split_ifs at member with astral
  · obtain ⟨b,rest,rfl⟩ := mem_sequences inside
    obtain ⟨high,low⟩ := halves_lt (codePoint_lt b rest)
    obtain first | member := List.mem_cons.mp member
    · rw [first]
      dsimp only
      exact utf16Len_stringFromCodeUnit high
    · rw [List.mem_singleton.mp member]
      dsimp only
      exact utf16Len_stringFromCodeUnit low
  · rw [List.eq_of_mem_replicate member]
    exact (utf16Len_stringFromSequence lone sequence.2).trans (units_sequence inside)

end halves

/-- Wherever four bytes are announced, they stand for a code point that has two halves. -/
def Unbroken (bytes : List UInt8) : Prop := ∀ step ∈ wtf8Steps bytes,step.units = 2 → 0x10000 ≤ step.codePoint

section unbroken

variable {bytes : List UInt8}

theorem unbroken_wtf8 {points : List Nat} (bounded : Bounded points) : Unbroken (wtf8 points) := by
  intro step member
  rw [wtf8Steps_wtf8 bounded,List.mem_map] at member
  obtain ⟨c,-,rfl⟩ := member
  have size := length_unitsOf_cases c
  change (unitsOf c).length = 2 → 0x10000 ≤ c
  omega

theorem unbroken_iff : Unbroken bytes ↔ ∀ sequence ∈ sequences bytes,sequence.1.units = 2 → isAstral sequence.1 = true := by
  rw [Unbroken,← map_fst_sequences,List.forall_mem_map]
  apply forall₂_congr
  intro sequence _
  rw [isAstral,decide_eq_true_iff]
  exact forall_congr' fun two => (and_iff_right two).symm

theorem units_le {sequence : Wtf8Step × List UInt8} (member : sequence ∈ sequences bytes) : sequence.1.units ≤ 2 := by
  obtain ⟨b,rest,rfl⟩ := mem_sequences member
  rw [wtf8Step_units]
  split_ifs <;> omega

theorem reported_emitted (lone : Bool) (unbroken : Unbroken bytes) :
    ((sequences bytes).flatMap (reported lone)).map Prod.fst = (sequences bytes).flatMap (emitted lone) := by
  rw [List.map_flatMap]
  apply List.flatMap_congr
  intro sequence member
  have two := unbroken_iff.mp unbroken sequence member
  have most := units_le member
  rw [reported,emitted]
  split_ifs with astral
  · rw [List.map_cons,List.map_singleton]
  · have one : max sequence.1.units 1 = 1 := by
      have other : sequence.1.units ≠ 2 := fun same => astral (two same)
      omega
    rw [one]
    rfl

/-- A broken sequence is read as two parts where the array gets one. -/
theorem emitted_lt (lone : Bool) (broken : ¬ Unbroken bytes) :
    ((sequences bytes).flatMap (emitted lone)).length < ((sequences bytes).flatMap (reported lone)).length := by
  rw [unbroken_iff] at broken
  push Not at broken
  obtain ⟨sequence,member,two,other⟩ := broken
  rw [List.length_flatMap,List.length_flatMap]
  apply List.sum_lt_sum
  · intro sequence _
    rw [length_reported]
    exact length_emitted_le lone sequence
  · refine ⟨sequence,member,?_⟩
    rw [length_reported,two,emitted,if_neg other,List.length_singleton]
    decide

end unbroken

section functions

variable {s delimiter : StringHeader}

theorem jsStringSplit_some (some : delimiter.bytes ≠ []) :
    jsStringSplit s delimiter = (splitRanges delimiter.bytes s.bytes).map (stringFromRange s) := by
  rw [jsStringSplit,jsStringSplitN,if_neg (by decide),if_neg (mt List.isEmpty_iff.mp some)]
  dsimp only
  rw [if_neg (by omega)]

theorem jsStringSplitPartValue_some (some : delimiter.bytes ≠ []) (k : Nat) :
    jsStringSplitPartValue s delimiter k = (jsStringSplit s delimiter)[k]? := by
  rw [jsStringSplitPartValue,if_neg (by omega),if_neg (mt List.isEmpty_iff.mp some),jsStringSplit_some some,
    splitPartByteRange_eq _ some,List.getElem?_map,Int.toNat_natCast]
  cases (splitRanges delimiter.bytes s.bytes)[k]? <;> rfl

/-- The parts read one at a time are the elements of the array exactly where no sequence is broken. -/
theorem jsStringSplitPartValue_iff : (∀ k : Nat,jsStringSplitPartValue s delimiter k = (jsStringSplit s delimiter)[k]?) ↔
    delimiter.bytes ≠ [] ∨ Unbroken s.bytes := by
  by_cases empty : delimiter.bytes = []
  · rw [or_iff_right (not_not.mpr empty)]
    simp only [jsStringSplitPartValue_empty empty,jsStringSplit_empty empty,← List.getElem?_map]
    constructor
    · intro same
      by_contra broken
      have less := emitted_lt (hasLoneSurrogates s) broken
      rw [← List.ext_getElem? same,List.length_map] at less
      exact Nat.lt_irrefl _ less
    · intro unbroken k
      rw [reported_emitted _ unbroken]
  · exact iff_of_true (jsStringSplitPartValue_some empty) (.inl empty)

theorem allAscii_stretch (ascii : allAscii s.bytes = true) (range : Nat × Nat) : allAscii (stretch s.bytes range) = true := by
  rw [allAscii,List.all_eq_true] at ascii ⊢
  exact fun b member => ascii b (List.mem_of_mem_drop (List.mem_of_mem_take member))

theorem bytes_stringFromRange (range : Nat × Nat) : (stringFromRange s range).bytes = stretch s.bytes range := by
  unfold stringFromRange
  dsimp only
  split_ifs <;> rfl

theorem utf16Len_stringFromRange (range : Nat × Nat) :
    (stringFromRange s range).utf16Len = computeUtf16Len (stretch s.bytes range) := by
  unfold stringFromRange
  dsimp only
  by_cases ascii : allAscii s.bytes = true
  · rw [if_pos ascii,computeUtf16Len,if_pos (allAscii_stretch ascii range)]
  · rw [if_neg ascii]

theorem jsStringSplitPartUtf16Length_eq (fits : delimiter.bytes ≠ [] ∨ Unbroken s.bytes) (k : Nat) :
    jsStringSplitPartUtf16Length s delimiter k = (((jsStringSplit s delimiter)[k]?).map StringHeader.utf16Len).getD 0 := by
  by_cases empty : delimiter.bytes = []
  · have value := jsStringSplitPartValue_iff.mpr fits k
    rw [← value,jsStringSplitPartValue_empty empty,jsStringSplitPartUtf16Length_empty (hasLoneSurrogates s) empty]
    cases read : ((sequences s.bytes).flatMap (reported (hasLoneSurrogates s)))[k]? with
    | none => rfl
    | some part => exact (utf16Len_reported (List.mem_of_getElem? read)).symm
  · rw [jsStringSplitPartUtf16Length,if_neg (by omega),if_neg (mt List.isEmpty_iff.mp empty),jsStringSplit_some empty,
      splitPartByteRange_eq _ empty,List.getElem?_map,Int.toNat_natCast]
    cases (splitRanges delimiter.bytes s.bytes)[k]? with
    | none => rfl
    | some range =>
      rw [Option.map_some,Option.map_some,Option.getD_some,utf16Len_stringFromRange]
      dsimp only
      split_ifs with ascii
      · rw [computeUtf16Len,if_pos ascii]
      · rfl

theorem join_jsStringSplit (some : delimiter.bytes ≠ []) :
    delimiter.bytes.intercalate ((jsStringSplit s delimiter).map StringHeader.bytes) = s.bytes := by
  have parts : StringHeader.bytes ∘ stringFromRange s = stretch s.bytes := by
    ext1 range
    exact bytes_stringFromRange range
  rw [jsStringSplit_some some,List.map_map,parts,join_splitRanges]

end functions

section upperCase

variable {bytes : List UInt8} {s delimiter : StringHeader} (mapping : CaseMapping)

theorem bytes_jsStringToUpperCase (s : StringHeader) :
    (jsStringToUpperCase mapping s).bytes = (sequences s.bytes).flatMap (converted mapping.toUppercase) := by
  unfold jsStringToUpperCase caseConvert
  dsimp only
  split_ifs <;> rfl

theorem wtf8Steps_wtf8_append {points : List Nat} (bounded : Bounded points) (rest : List UInt8) :
    wtf8Steps (wtf8 points ++ rest) = points.map stepOf ++ wtf8Steps rest := by
  induction points with
  | nil => rfl
  | cons c points ih =>
    rw [wtf8_cons,List.append_assoc,wtf8Steps_encodeUtf8 bounded.cons.1,ih bounded.cons.2,List.map_cons,List.cons_append]

/-- What is mapped is well formed, and what is copied is read again as it was. -/
theorem unbroken_converted (unbroken : Unbroken bytes) :
    Unbroken ((sequences bytes).flatMap (converted mapping.toUppercase)) := by
  induction size : bytes.length using Nat.strong_induction_on generalizing bytes with
  | h n ih =>
    cases bytes with
    | nil => exact unbroken
    | cons b rest =>
      obtain ⟨m,advance⟩ := Nat.exists_eq_add_one_of_ne_zero (advance_pos b rest).ne'
      have parts := unbroken
      rw [Unbroken,wtf8Steps_cons,List.forall_mem_cons,advance,Nat.add_sub_cancel] at parts
      have shorter : (rest.drop m).length < n := by
        rw [List.length_drop,← size,List.length_cons]
        omega
      have later := ih _ shorter parts.2 rfl
      rw [sequences_cons,List.flatMap_cons,advance,Nat.add_sub_cancel,List.take_succ_cons,converted]
      cases whole : mapped (wtf8Step b rest,b :: rest.take m) with
      | some c =>
        have bounded := bounded_scalars (mapping.scalars c)
        dsimp only
        rw [Unbroken,wtf8Steps_wtf8_append bounded,List.forall_mem_append]
        refine ⟨?_,later⟩
        rw [← wtf8Steps_wtf8 bounded]
        exact unbroken_wtf8 bounded
      | none =>
        dsimp only
        obtain outside | inside := Nat.lt_or_ge rest.length m
        · rw [List.take_of_length_le outside.le,List.drop_eq_nil_of_le outside.le]
          exact (List.append_nil (b :: rest)).symm ▸ unbroken
        · have full : (rest.take m).length + 1 = (wtf8Step b (rest.take m)).advance := by
            rw [List.length_take_of_le inside,(wtf8Step_shape b _ rest).1,advance]
          have same (x : List UInt8) : wtf8Step b (rest.take m ++ x) = wtf8Step b rest := by
            rw [wtf8Step_append full,← wtf8Step_append full (rest.drop m),List.take_append_drop]
          rw [List.cons_append,Unbroken,wtf8Steps_cons,same,advance,Nat.add_sub_cancel,
            List.drop_left' (List.length_take_of_le inside),List.forall_mem_cons]
          exact ⟨parts.1,later⟩

theorem asciiUpperByte_lt {b : UInt8} (small : b.toNat < 0x80) : (asciiUpperByte b).toNat < 0x80 := by
  unfold asciiUpperByte
  split_ifs with lower
  · have least : 0x61 ≤ b.toNat := UInt8.le_iff_toNat_le.mp lower.1
    rw [UInt8.toNat_sub_of_le _ _ (UInt8.le_iff_toNat_le.mpr (le_trans (by decide) least))]
    exact (Nat.sub_le _ _).trans_lt small
  · exact small

theorem allAscii_cons {b : UInt8} (ascii : allAscii (b :: bytes) = true) : b.toNat < 0x80 ∧ allAscii bytes = true := by
  rw [allAscii,List.all_cons,Bool.and_eq_true,decide_eq_true_iff] at ascii
  exact ascii

/-- Where every byte is a character, each is mapped on its own. -/
theorem upper_ascii (ascii : allAscii bytes = true) : (sequences bytes).flatMap (converted mapping.toUppercase) = bytes.map asciiUpperByte ∧
    allAscii (bytes.map asciiUpperByte) = true := by
  induction bytes with
  | nil => exact ⟨rfl,rfl⟩
  | cons b bytes ih =>
    obtain ⟨small,others⟩ := allAscii_cons ascii
    obtain ⟨same,plain⟩ := ih others
    have step : wtf8Step b bytes = ⟨1,1,b.toNat⟩ := by rw [wtf8Step,if_pos small]
    have scalar : isScalar b.toNat = true := decide_eq_true ⟨by omega,by omega⟩
    have upper := asciiUpperByte_lt small
    have one : converted mapping.toUppercase (⟨1,1,b.toNat⟩,[b]) = [asciiUpperByte b] := by
      rw [converted,mapped,if_pos ⟨Nat.zero_lt_one,rfl,scalar⟩]
      dsimp only
      rw [mapping.ascii b small,wtf8_cons,wtf8_nil,encodeUtf8,if_pos upper,UInt8.ofNat_toNat]
      rfl
    constructor
    · rw [sequences_cons,step,List.flatMap_cons,Nat.sub_self,List.drop_zero,same,List.take_succ_cons,List.take_zero,one,
        List.map_cons]
      rfl
    · rw [List.map_cons,allAscii,List.all_cons,Bool.and_eq_true,decide_eq_true_iff]
      exact ⟨upper,plain⟩

/-- Every byte is a part of its own. -/
theorem reported_ascii (ascii : allAscii bytes = true) (lone : Bool) :
    ((sequences bytes).flatMap (reported lone)).map Prod.snd = bytes.map fun _ => 1 := by
  induction bytes with
  | nil => rfl
  | cons b bytes ih =>
    obtain ⟨small,others⟩ := allAscii_cons ascii
    have step : wtf8Step b bytes = ⟨1,1,b.toNat⟩ := by rw [wtf8Step,if_pos small]
    rw [sequences_cons,step,List.flatMap_cons,List.map_append,Nat.sub_self,List.drop_zero,ih others]
    rfl

theorem zip_all_iff {as bs : List UInt8} (size : as.length = bs.length) :
    ((as.zip bs).all fun (a,b) => asciiUpperByte a = b) = true ↔ as.map asciiUpperByte = bs := by
  induction as generalizing bs with
  | nil =>
    rw [List.eq_nil_of_length_eq_zero size.symm]
    exact iff_of_true rfl rfl
  | cons a as ih =>
    cases bs with
    | nil => cases size
    | cons b bs =>
      rw [List.zip_cons_cons,List.all_cons,Bool.and_eq_true,ih (Nat.succ_inj.mp size),decide_eq_true_iff,List.map_cons,
        List.cons.injEq]

/-- The scan that folds case finds what a scan of the upper-case bytes does. -/
theorem scan_upper (some : delimiter.bytes ≠ []) (target : Nat) : scanPart
      (fun scan => (((s.bytes.drop scan).take delimiter.bytes.length).zip delimiter.bytes).all fun (sourceByte,delimiterByte) =>
        asciiUpperByte sourceByte = delimiterByte)
      delimiter.bytes.length s.bytes.length target 0 0 0 = (splitRanges delimiter.bytes (s.bytes.map asciiUpperByte))[target]? := by
  have length : (s.bytes.map asciiUpperByte).length = s.bytes.length := List.length_map _
  rw [splitRanges,length]
  refine scanPart_eq (List.length_pos_of_ne_nil some) (occurrences_sorted _ _) (fun i => ?_) (Nat.zero_le _)
  rw [mem_occurrences]
  have here (fits : i + delimiter.bytes.length ≤ s.bytes.length) : delimiter.bytes <+: (s.bytes.map asciiUpperByte).drop i ↔
      (((s.bytes.drop i).take delimiter.bytes.length).zip delimiter.bytes).all
        (fun (sourceByte,delimiterByte) => asciiUpperByte sourceByte = delimiterByte) = true := by
    rw [zip_all_iff (by rw [List.length_take_of_le]; rw [List.length_drop]; omega),List.prefix_iff_eq_take,List.map_take,
      List.map_drop,eq_comm]
  constructor
  · intro occurs
    have fits := occurs.fits
    rw [length] at fits
    exact ⟨(here fits).mp occurs.2,fits⟩
  · rintro ⟨found,fits⟩
    exact ⟨by omega,(here fits).mpr found⟩

theorem splitRanges_absent {needle hay : List UInt8} (absent : ∀ i,¬ Occurs needle hay i) :
    splitRanges needle hay = [(0,hay.length)] := by
  have none : occurrences needle hay = [] := List.eq_nil_iff_forall_not_mem.mpr fun i member => absent i (mem_occurrences.mp member)
  rw [splitRanges,matchIndices,none]
  rfl

theorem absent_ascii {needle hay : List UInt8} (plain : allAscii hay = true) (other : ¬ allAscii needle = true) (i : Nat) :
    ¬ Occurs needle hay i := by
  intro occurs
  obtain ⟨front,back,rfl,-⟩ := occurs_split.mp occurs
  rw [allAscii,List.all_append,List.all_append,Bool.and_eq_true,Bool.and_eq_true] at plain
  exact other plain.2.1

theorem jsStringToUpperCaseSplitPartUtf16Length_eq (k : Nat) :
    jsStringToUpperCaseSplitPartUtf16Length mapping s delimiter k =
      jsStringSplitPartUtf16Length (jsStringToUpperCase mapping s) delimiter k := by
  have given : ¬ ((k : Int) < 0) := by omega
  rw [jsStringToUpperCaseSplitPartUtf16Length,if_neg given]
  by_cases ascii : allAscii s.bytes = true
  · obtain ⟨same,plain⟩ := upper_ascii mapping ascii
    rw [← bytes_jsStringToUpperCase mapping s] at same
    rw [if_neg (not_not.mpr ascii)]
    by_cases empty : delimiter.bytes = []
    · rw [if_pos (List.isEmpty_iff.mpr empty),jsStringSplitPartUtf16Length_empty false empty,same,← List.getElem?_map,
        reported_ascii plain,List.map_map,List.getElem?_map,Int.toNat_natCast]
      split_ifs with inside
      · rw [List.getElem?_eq_getElem inside]
        rfl
      · rw [List.getElem?_eq_none (Nat.le_of_not_lt inside)]
        rfl
    · rw [if_neg (mt List.isEmpty_iff.mp empty),jsStringSplitPartUtf16Length,if_neg given,
        if_neg (mt List.isEmpty_iff.mp empty),same,splitPartByteRange_eq _ empty,Int.toNat_natCast]
      have parts (range : Nat × Nat) : allAscii (stretch (s.bytes.map asciiUpperByte) range) = true := by
        rw [← same]
        exact allAscii_stretch (same.symm ▸ plain) range
      by_cases other : allAscii delimiter.bytes = true
      · rw [if_neg (not_not.mpr other)]
        dsimp only
        rw [scan_upper empty]
        cases found : (splitRanges delimiter.bytes (s.bytes.map asciiUpperByte))[k]? with
        | none => rfl
        | some range =>
          have inside := mem_splitRanges (List.mem_of_getElem? found)
          dsimp only
          rw [if_pos (parts range),stretch,List.length_take_of_le]
          rw [List.length_drop]
          omega
      · rw [if_pos other,splitRanges_absent (absent_ascii plain other)]
        cases k with
        | zero =>
          rw [List.getElem?_cons_zero]
          dsimp only
          rw [if_pos (parts _),stretch,List.drop_zero,Nat.sub_zero,List.take_length,List.length_map]
          rfl
        | succ k => rfl
  · rw [if_pos ascii]

end upperCase

/-- What is read of one part is what the array holds, and the array joined is the string. -/
structure PartsAgree (mapping : CaseMapping) (s delimiter : StringHeader) : Prop where
  value : ∀ k : Nat,jsStringSplitPartValue s delimiter k = (jsStringSplit s delimiter)[k]?
  length : ∀ k : Nat,jsStringSplitPartUtf16Length s delimiter k = (((jsStringSplit s delimiter)[k]?).map StringHeader.utf16Len).getD 0
  upper : ∀ k : Nat,jsStringToUpperCaseSplitPartUtf16Length mapping s delimiter k =
    (((jsStringSplit (jsStringToUpperCase mapping s) delimiter)[k]?).map StringHeader.utf16Len).getD 0
  join : delimiter.bytes ≠ [] → delimiter.bytes.intercalate ((jsStringSplit s delimiter).map StringHeader.bytes) = s.bytes

/-- The parts agree for any bytes, truthful header or not, unless the delimiter is empty and a
sequence is broken, which no string in WTF-8 has. -/
theorem parts_exact (mapping : CaseMapping) (s delimiter : StringHeader) :
    (PartsAgree mapping s delimiter ↔ delimiter.bytes ≠ [] ∨ Unbroken s.bytes) ∧
      ∀ points,Bounded points → s.bytes = wtf8 points → Unbroken s.bytes := by
  refine ⟨⟨fun agree => jsStringSplitPartValue_iff.mp agree.value,fun fits => ?_⟩,fun points bounded same => ?_⟩
  · refine ⟨jsStringSplitPartValue_iff.mpr fits,jsStringSplitPartUtf16Length_eq fits,fun k => ?_,join_jsStringSplit⟩
    rw [jsStringToUpperCaseSplitPartUtf16Length_eq]
    apply jsStringSplitPartUtf16Length_eq
    refine fits.imp_right fun unbroken => ?_
    rw [bytes_jsStringToUpperCase]
    exact unbroken_converted mapping unbroken
  · rw [same]
    exact unbroken_wtf8 bounded

/-- Only ASCII letters have another case. -/
def asciiMapping : CaseMapping where
  toUppercase c := if c < 0x80 then [(asciiUpperByte (.ofNat c)).toNat] else if isScalar c then [c] else []
  scalars c u member := by
    split_ifs at member with small scalar
    · have upper := asciiUpperByte_lt ((toNat_ofNat_of_lt (by omega : c < 256)).trans_lt small)
      rw [List.mem_singleton.mp member]
      exact decide_eq_true ⟨by omega,by omega⟩
    · rw [List.mem_singleton.mp member]
      exact scalar
    · cases member
  ascii byte small := by rw [if_pos small,UInt8.ofNat_toNat]

/-- A lead byte of four at the end is one element of the array and is read as two. -/
theorem part_twice : jsStringSplit ⟨2,0,[0xF0]⟩ ⟨0,0,[]⟩ = [⟨2,0,[0xF0]⟩] ∧
    jsStringSplitPartValue ⟨2,0,[0xF0]⟩ ⟨0,0,[]⟩ 1 = some ⟨2,0,[0xF0]⟩ ∧
    ¬ PartsAgree asciiMapping ⟨2,0,[0xF0]⟩ ⟨0,0,[]⟩ := by
  refine ⟨by decide,by decide,fun agree => ?_⟩
  have second := agree.value 1
  exact absurd second (by decide)

end Perry.Strings
