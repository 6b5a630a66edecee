import Perry.Runtime.Base64

/-! The base64 methods of `Uint8Array`, which decode one alphabet into a row of a given length, and what they share with
those of `Buffer`. -/
namespace Perry.Runtime.Base64

open Perry.Words

def stdDecode : UInt8 → Nat := alphabetValue [0x2b] [0x2f] 255

def urlDecode : UInt8 → Nat := alphabetValue [0x2d] [0x5f] 255

def base64Encode (bytes : List UInt8) (url omitPadding : Bool) : List UInt8 :=
  encodeWith (if url then base64urlEncodeTable else base64EncodeTable) (!omitPadding) bytes

def isB64Whitespace (b : UInt8) : Bool := b ∈ [0x20,0x09,0x0a,0x0d,0x0c]

inductive LastChunk
  | loose
  | strict
  | stopBeforePartial
deriving DecidableEq

structure Strict where
  written : List UInt8
  /-- The values of a group that is not complete. -/
  group : List Nat
  lastGroupEnd : Nat
  sawPadding : Bool
  padCount : Nat

inductive Scanned
  /-- A group did not fit. -/
  | full (read : Nat) (written : List UInt8)
  | ended (i : Nat) (state : Strict)

/-- The bytes of a group. The last ones are of no use while the group is not complete. -/
def groupBytes (group : List Nat) : List UInt8 :=
  [UInt8.ofNat (group.getD 0 0 <<< 2 ||| group.getD 1 0 >>> 4),UInt8.ofNat (group.getD 1 0 <<< 4 ||| group.getD 2 0 >>> 2),
    UInt8.ofNat (group.getD 2 0 <<< 6 ||| group.getD 3 0)]

/-- The loop of `base64_decode_strict`. -/
def scan (url : Bool) (cap : Nat) (bounded : Bool) : Nat → Strict → List UInt8 → Except String Scanned
  | i,state,[] => .ok (.ended i state)
  | i,state,b :: rest =>
    if isB64Whitespace b then scan url cap bounded (i + 1) state rest
    else if b = 0x3d then
      if state.group.length < 2 ∨ 2 < state.padCount + 1 then .error "Invalid base64 padding"
      else if state.group.length = 2 ∧ state.padCount + 1 = 2 ∨ state.group.length = 3 then
        .ok (.ended (i + 1) { state with sawPadding := true,padCount := state.padCount + 1 })
      else scan url cap bounded (i + 1) { state with sawPadding := true,padCount := state.padCount + 1 } rest
    else if state.sawPadding then .error "Found a character after end of padding"
    else
      let v := if url then urlDecode b else stdDecode b
      if v = 255 then .error "Found a character that cannot be part of a valid base64 string."
      else
        let group := state.group ++ [v]
        if group.length = 4 then
          if cap < state.written.length + 3 then
            if bounded then .ok (.full state.lastGroupEnd state.written)
            else .ok (.full (i + 1) (state.written ++ (groupBytes group).take (cap - state.written.length)))
          else scan url cap bounded (i + 1)
            { state with written := state.written ++ groupBytes group,group := [],lastGroupEnd := i + 1 } rest
        else scan url cap bounded (i + 1) { state with group := group } rest

def extraBitsZero (group : List Nat) : Bool :=
  if group.length = 2 then group.getD 1 0 &&& 0x0f = 0 else group.getD 2 0 &&& 0x03 = 0

/-- What becomes of the last group. -/
def finish (lastChunk : LastChunk) (cap : Nat) (bounded : Bool) : Scanned → Except String (Nat × List UInt8)
  | .full read written => .ok (read,written)
  | .ended i state =>
    if state.group.length = 0 then .ok (state.lastGroupEnd,state.written)
    else if state.group.length = 1 then
      if lastChunk = .strict then .error "The base64 input terminates with a single character, excluding padding (=)."
      else .ok (state.lastGroupEnd,state.written)
    else if lastChunk = .stopBeforePartial ∧ ¬state.sawPadding then .ok (state.lastGroupEnd,state.written)
    else if lastChunk = .strict ∧ ¬state.sawPadding then .error "Missing padding character in base64 string"
    else if lastChunk = .strict ∧ ¬extraBitsZero state.group then
      .error "The base64 input contains non-zero bits after the final character"
    else
      let produced := state.group.length - 1
      let toWrite := min produced (cap - state.written.length)
      if bounded ∧ toWrite < produced then .ok (state.lastGroupEnd,state.written)
      else .ok (i,state.written ++ (groupBytes state.group).take toWrite)

def base64DecodeStrict (input : List UInt8) (url : Bool) (lastChunk : LastChunk) (cap : Nat) (bounded : Bool) :
    Except String (Nat × List UInt8) :=
  (scan url cap bounded 0 ⟨[],[],0,false,0⟩ input).bind (finish lastChunk cap bounded)

def base64MaxBytes (input : List UInt8) : Nat := input.length * 3 / 4 + 3

def jsU8FromBase64 (input : List UInt8) (url : Bool) (lastChunk : LastChunk) : Except String (List UInt8) :=
  (base64DecodeStrict input url lastChunk (base64MaxBytes input) false).map Prod.snd

/-- What is read and what is written to the front of an array of a length. -/
def jsU8SetFromBase64 (length : Nat) (input : List UInt8) (url : Bool) (lastChunk : LastChunk) : Except String (Nat × List UInt8) :=
  base64DecodeStrict input url lastChunk length true

section Agreement

/-- A value of one alphabet is that of the table for both. -/
theorem alphabetValue_widen {p s b : UInt8} {plus slash : List UInt8} (known : p ∈ plus) (known_slash : s ∈ slash) (apart : s ∉ plus)
    (present : alphabetValue [p] [s] 255 b ≠ 255) :
    alphabetValue [p] [s] 255 b = alphabetValue plus slash 64 b ∧ alphabetValue plus slash 64 b < 64 := by
  have same : alphabetValue [p] [s] 255 b = alphabetValue plus slash 64 b := by
    unfold alphabetValue at present ⊢
    split_ifs at present ⊢ <;> simp_all
  rw [← same]
  exact ⟨rfl,(alphabetValue_lt b).resolve_right present⟩

theorem strict_table {url : Bool} {b : UInt8} (present : (if url then urlDecode b else stdDecode b) ≠ 255) :
    (if url then urlDecode b else stdDecode b) = base64DecodeTable b ∧ base64DecodeTable b < 64 := by
  cases url with
  | true => exact alphabetValue_widen (by decide) (by decide) (by decide) present
  | false => exact alphabetValue_widen (by decide) (by decide) (by decide) present

theorem whitespace_missing {b : UInt8} (blank : isB64Whitespace b) : b ≠ 0x3d ∧ base64DecodeTable b = 64 := by
  simp only [isB64Whitespace,decide_eq_true_eq,List.mem_cons,List.not_mem_nil,or_false] at blank
  obtain rfl | rfl | rfl | rfl | rfl := blank <;> decide

/-- Nothing behind a `=` counts. -/
theorem sextets_padded {front : List UInt8} (pad : 0x3d ∈ front) (back : List UInt8) : sextets (front ++ back) = sextets front := by
  induction front with
  | nil => cases pad
  | cons b front ih =>
    rw [List.cons_append]
    by_cases same : b = 0x3d
    · rw [same,sextets_pad,sextets_pad]
    have rest := ih ((List.mem_cons.mp pad).resolve_left (Ne.symm same))
    obtain valid | missing : base64DecodeTable b < 64 ∨ base64DecodeTable b = 64 := alphabetValue_lt b
    · rw [sextets_valid _ same valid,sextets_valid _ same valid,rest]
    · rw [sextets_skip _ same missing,sextets_skip _ same missing,rest]

theorem sextets_append {front : List UInt8} (no_pad : 0x3d ∉ front) (back : List UInt8) :
    sextets (front ++ back) = sextets front ++ sextets back := by
  induction front with
  | nil => rfl
  | cons b front ih =>
    simp only [List.mem_cons,not_or] at no_pad
    obtain ⟨pad_other,none⟩ := no_pad
    have other : b ≠ 0x3d := Ne.symm pad_other
    rw [List.cons_append]
    obtain valid | missing : base64DecodeTable b < 64 ∨ base64DecodeTable b = 64 := alphabetValue_lt b
    · rw [sextets_valid _ other valid,sextets_valid _ other valid,ih none,List.cons_append]
    · rw [sextets_skip _ other missing,sextets_skip _ other missing,ih none]

section Groups

variable {v0 v1 v2 v3 : Nat} (l0 : v0 < 64) (l1 : v1 < 64) (l2 : v2 < 64)

include l0 l1 l2

theorem groupBytes_eq (l3 : v3 < 64) : (groupBytes [v0,v1,v2,v3]).map UInt8.toNat =
    [v0 * 4 + v1 / 16,(v1 * 16 + v2 / 4) % 256,(v2 * 64 + v3) % 256] := by
  have first : v0 <<< 2 ||| v1 >>> 4 = v0 * 4 + v1 / 16 := by
    rw [Nat.shiftRight_eq_div_pow]
    exact shift_or (by norm_num; omega)
  have second : v1 <<< 4 ||| v2 >>> 2 = v1 * 16 + v2 / 4 := by
    rw [Nat.shiftRight_eq_div_pow]
    exact shift_or (by norm_num; omega)
  have third : v2 <<< 6 ||| v3 = v2 * 64 + v3 := shift_or l3
  have small : (v0 * 4 + v1 / 16) % 256 = v0 * 4 + v1 / 16 := Nat.mod_eq_of_lt (by omega)
  simp only [groupBytes,List.getD_cons_zero,List.getD_cons_succ,List.map_cons,List.map_nil,UInt8.toNat_ofNat',first,second,third,small,
    Nat.reducePow]

/-- A group of four leaves nothing over. -/
theorem whole_group (l3 : v3 < 64) : Regrouping 6 8 [v0,v1,v2,v3] ((groupBytes [v0,v1,v2,v3]).map UInt8.toNat) 0 0 := by
  rw [groupBytes_eq l0 l1 l2 l3]
  refine ⟨?_,rfl,Nat.one_pos,?_⟩
  · simp only [List.forall_mem_cons]
    exact ⟨by omega,by omega,by omega,List.forall_mem_nil _⟩
  · simp only [bigEndian_cons,bigEndian_nil,List.length_cons,List.length_nil]
    omega

theorem three_left : Regroups 6 8 [v0,v1,v2] (((groupBytes [v0,v1,v2]).take 2).map UInt8.toNat) := by
  have bytes := groupBytes_eq l0 l1 l2 (show 0 < 64 by omega)
  have shape : groupBytes [v0,v1,v2] = groupBytes [v0,v1,v2,0] := rfl
  rw [List.map_take,shape,bytes]
  refine ⟨v2 % 4,2,⟨?_,rfl,Nat.mod_lt _ (by omega),?_⟩,by omega⟩
  · simp only [List.take_succ_cons,List.take_zero,List.forall_mem_cons]
    exact ⟨by omega,by omega,List.forall_mem_nil _⟩
  · simp only [List.take_succ_cons,List.take_zero,bigEndian_cons,bigEndian_nil,List.length_cons,List.length_nil]
    omega

omit l2

theorem two_left : Regroups 6 8 [v0,v1] (((groupBytes [v0,v1]).take 1).map UInt8.toNat) := by
  have bytes := groupBytes_eq l0 l1 (show 0 < 64 by omega) (show 0 < 64 by omega)
  have shape : groupBytes [v0,v1] = groupBytes [v0,v1,0,0] := rfl
  rw [List.map_take,shape,bytes]
  refine ⟨v1 % 16,4,⟨?_,rfl,Nat.mod_lt _ (by omega),?_⟩,by omega⟩
  · simp only [List.take_succ_cons,List.take_zero,List.forall_mem_cons]
    exact ⟨by omega,List.forall_mem_nil _⟩
  · simp only [List.take_succ_cons,List.take_zero,bigEndian_cons,bigEndian_nil,List.length_cons,List.length_nil]
    omega

end Groups

/-- What has been read of a text. -/
structure Stands (cap : Nat) (text : List UInt8) (state : Strict) : Prop where
  values : ∃ front,Regrouping 6 8 front (state.written.map UInt8.toNat) 0 0 ∧ sextets text = front ++ state.group ∧
    sextets (text.take state.lastGroupEnd) = front
  group_lt : ∀ v ∈ state.group,v < 64
  few : state.group.length < 4
  padded : state.sawPadding = true ↔ 0x3d ∈ text
  passed : state.lastGroupEnd ≤ text.length
  fits : state.written.length ≤ cap

namespace Stands

variable {cap : Nat} {text : List UInt8} {state : Strict} {b : UInt8} {v : Nat}

theorem start (cap : Nat) : Stands cap [] ⟨[],[],0,false,0⟩ :=
  ⟨⟨[],.nil,rfl,rfl⟩,List.forall_mem_nil _,by decide,by simp,Nat.le_refl 0,Nat.zero_le _⟩

variable (stands : Stands cap text state)

include stands

theorem skip (other : b ≠ 0x3d) (missing : base64DecodeTable b = 64) : Stands cap (text ++ [b]) state := by
  obtain ⟨front,regrouping,said,last⟩ := stands.values
  refine ⟨⟨front,regrouping,?_,?_⟩,stands.group_lt,stands.few,?_,?_,stands.fits⟩
  · by_cases pad : 0x3d ∈ text
    · rw [sextets_padded pad,said]
    · rw [sextets_append pad,sextets_skip _ other missing,sextets_nil,List.append_nil,said]
  · rw [List.take_append_of_le_length stands.passed,last]
  · simpa [Ne.symm other] using stands.padded
  · exact stands.passed.trans (by simp)

theorem pad (count : Nat) : Stands cap (text ++ [0x3d]) { state with sawPadding := true,padCount := count } := by
  obtain ⟨front,regrouping,said,last⟩ := stands.values
  refine ⟨⟨front,regrouping,?_,?_⟩,stands.group_lt,stands.few,by simp,?_,stands.fits⟩
  · by_cases pad : 0x3d ∈ text
    · rw [sextets_padded pad,said]
    · rw [sextets_append pad,sextets_pad,List.append_nil,said]
  · rw [List.take_append_of_le_length stands.passed,last]
  · exact stands.passed.trans (by simp)

theorem valued (unpadded : state.sawPadding = false) (other : b ≠ 0x3d) (value : base64DecodeTable b = v) (valid : v < 64) :
    sextets (text ++ [b]) = sextets text ++ [v] ∧ 0x3d ∉ text ++ [b] := by
  have pad : 0x3d ∉ text := fun pad => by simp [stands.padded.mpr pad] at unpadded
  rw [sextets_append pad,sextets_valid _ other (value ▸ valid),sextets_nil,value]
  exact ⟨rfl,by simp [pad,Ne.symm other]⟩

theorem push (unpadded : state.sawPadding = false) (other : b ≠ 0x3d) (value : base64DecodeTable b = v) (valid : v < 64)
    (short : (state.group ++ [v]).length < 4) : Stands cap (text ++ [b]) { state with group := state.group ++ [v] } := by
  obtain ⟨front,regrouping,said,last⟩ := stands.values
  obtain ⟨longer,pad⟩ := stands.valued unpadded other value valid
  refine ⟨⟨front,regrouping,?_,?_⟩,?_,short,?_,?_,stands.fits⟩
  · rw [longer,said,List.append_assoc]
  · rw [List.take_append_of_le_length stands.passed,last]
  · exact List.forall_mem_append.mpr ⟨stands.group_lt,List.forall_mem_singleton.mpr valid⟩
  · exact iff_of_false (by simp [unpadded]) pad
  · exact stands.passed.trans (by simp)

theorem flush (unpadded : state.sawPadding = false) (other : b ≠ 0x3d) (value : base64DecodeTable b = v) (valid : v < 64)
    (whole : (state.group ++ [v]).length = 4) (room : state.written.length + 3 ≤ cap) :
    Stands cap (text ++ [b]) { state with
      written := state.written ++ groupBytes (state.group ++ [v]),group := [],lastGroupEnd := (text ++ [b]).length } := by
  obtain ⟨front,regrouping,said,last⟩ := stands.values
  obtain ⟨longer,pad⟩ := stands.valued unpadded other value valid
  have digits := List.forall_mem_append.mpr ⟨stands.group_lt,List.forall_mem_singleton.mpr valid⟩
  obtain ⟨v0,v1,v2,v3,shape⟩ := List.length_eq_four.mp whole
  rw [shape] at digits ⊢
  simp only [List.forall_mem_cons] at digits
  obtain ⟨l0,l1,l2,l3,_⟩ := digits
  refine ⟨⟨front ++ [v0,v1,v2,v3],?_,?_,?_⟩,List.forall_mem_nil _,by simp,?_,?_,?_⟩
  · rw [List.map_append]
    exact (whole_group l0 l1 l2 l3).group regrouping
  · rw [longer,said,List.append_assoc,shape,List.append_nil]
  · rw [List.take_length,longer,said,List.append_assoc,shape]
  · exact iff_of_false (by simp [unpadded]) pad
  · exact Nat.le_refl _
  · simpa [groupBytes] using room

/-- What has been written is what the other decoder makes of the whole groups. -/
theorem decoded (back : List UInt8) : base64DecodeIntoBuffer ((text ++ back).take state.lastGroupEnd) = state.written := by
  obtain ⟨front,regrouping,_,last⟩ := stands.values
  rw [List.take_append_of_le_length stands.passed]
  exact decode_of_regroups (last ▸ ⟨0,0,regrouping,by omega⟩)

/-- The characters of the whole groups make room for their bytes. -/
theorem written_le : 4 * state.written.length + 3 * state.group.length ≤ 3 * text.length := by
  obtain ⟨front,regrouping,said,_⟩ := stands.values
  have lengths := regrouping.length
  have fewer := sextets_length_le text
  rw [said,List.length_append] at fewer
  rw [List.length_map] at lengths
  omega

end Stands

variable {cap i : Nat} {text back : List UInt8} {state : Strict} {url bounded : Bool} {lastChunk : LastChunk}

/-- The room that a decoder is given: an array that bounds it, or one that is long enough. -/
def Spacious (cap : Nat) (bounded : Bool) (input : List UInt8) : Prop := bounded = true ∨ base64MaxBytes input ≤ cap

/-- Where the loop ends, what has been read stands. -/
theorem scan_stands {result : Scanned} (stands : Stands cap text state) (spacious : Spacious cap bounded (text ++ back))
    (scanned : scan url cap bounded text.length state back = .ok result) :
    ∃ front rest ended,text ++ back = front ++ rest ∧ Stands cap front ended ∧
      (result = .full ended.lastGroupEnd ended.written ∨ result = .ended front.length ended) := by
  induction back generalizing text state with
  | nil =>
    simp only [scan,Except.ok.injEq] at scanned
    exact ⟨text,[],state,rfl,stands,.inr scanned.symm⟩
  | cons b back ih =>
    have length : text.length + 1 = (text ++ [b]).length := by rw [List.length_append,List.length_singleton]
    have assoc : text ++ b :: back = (text ++ [b]) ++ back := List.append_cons ..
    rw [scan,length] at scanned
    rw [assoc] at spacious ⊢
    split at scanned
    · next blank =>
      obtain ⟨other,missing⟩ := whitespace_missing blank
      exact ih (stands.skip other missing) spacious scanned
    split at scanned
    · next pad =>
      subst pad
      split at scanned
      · cases scanned
      split at scanned
      · simp only [Except.ok.injEq] at scanned
        exact ⟨_,back,_,rfl,stands.pad _,.inr scanned.symm⟩
      · exact ih (stands.pad _) spacious scanned
    next other =>
    split at scanned
    · cases scanned
    next unpadded =>
    have unpadded : state.sawPadding = false := Bool.not_eq_true _ ▸ unpadded
    dsimp only at scanned
    have entry : ∀ v,(if url then urlDecode b else stdDecode b) = v → v ≠ 255 → v = base64DecodeTable b ∧ v < 64 := by
      rintro v rfl present
      obtain ⟨value,valid⟩ := strict_table present
      exact ⟨value,value ▸ valid⟩
    generalize (if url then urlDecode b else stdDecode b) = v at scanned entry
    split at scanned
    · cases scanned
    next present =>
    obtain ⟨value,valid⟩ := entry v rfl present
    split at scanned
    · next whole =>
      split at scanned
      · next cramped =>
        cases bounded with
        | true =>
          rw [if_pos rfl,Except.ok.injEq] at scanned
          exact ⟨text,b :: back,state,assoc.symm,stands,.inl scanned.symm⟩
        | false =>
          -- the text has characters for all bytes that are written, so there is room
          have enough := spacious.resolve_left Bool.false_ne_true
          have lengths := stands.written_le
          simp only [base64MaxBytes,List.length_append,List.length_singleton] at enough whole
          omega
      · next roomy => exact ih (stands.flush unpadded other value.symm valid whole (Nat.le_of_not_lt roomy)) spacious scanned
    · next short =>
      have few := stands.few
      exact ih (stands.push unpadded other value.symm valid (by
        rw [List.length_append,List.length_singleton] at short ⊢
        omega)) spacious scanned

/-- The last group agrees with the other decoder, whichever way it goes. -/
theorem finish_sound {read : Nat} {written : List UInt8} (stands : Stands cap text state) (spacious : Spacious cap bounded (text ++ back))
    (finished : finish lastChunk cap bounded (.ended text.length state) = .ok (read,written)) :
    read ≤ text.length ∧ written.length ≤ cap ∧ base64DecodeIntoBuffer ((text ++ back).take read) = written := by
  have whole : (state.lastGroupEnd,state.written) = (read,written) →
      read ≤ text.length ∧ written.length ≤ cap ∧ base64DecodeIntoBuffer ((text ++ back).take read) = written := by
    intro same
    obtain ⟨rfl,rfl⟩ := Prod.mk.inj same
    exact ⟨stands.passed,stands.fits,stands.decoded back⟩
  simp only [finish] at finished
  split at finished
  · exact whole (Except.ok.inj finished)
  split at finished
  · split at finished
    · cases finished
    · exact whole (Except.ok.inj finished)
  next several single =>
  split at finished
  · exact whole (Except.ok.inj finished)
  split at finished
  · cases finished
  split at finished
  · cases finished
  split at finished
  · exact whole (Except.ok.inj finished)
  next uncut =>
  obtain ⟨rfl,rfl⟩ := Prod.mk.inj (Except.ok.inj finished)
  have room : state.group.length - 1 ≤ cap - state.written.length := by
    obtain rfl | enough := spacious
    · simp only [true_and] at uncut
      omega
    · have lengths := stands.written_le
      have few := stands.few
      simp only [base64MaxBytes,List.length_append] at enough
      omega
  rw [Nat.min_eq_left room]
  refine ⟨Nat.le_refl _,?_,?_⟩
  · have := stands.fits
    rw [List.length_append,List.length_take]
    omega
  · obtain ⟨front,regrouping,said,_⟩ := stands.values
    rw [List.take_left]
    refine decode_of_regroups ?_
    rw [said,List.map_append]
    refine Regroups.group regrouping ?_
    have digits := stands.group_lt
    have few := stands.few
    obtain two | three : state.group.length = 2 ∨ state.group.length = 3 := by omega
    · obtain ⟨v0,v1,shape⟩ := List.length_eq_two.mp two
      rw [shape] at digits ⊢
      simp only [List.forall_mem_cons] at digits
      exact two_left digits.1 digits.2.1
    · obtain ⟨v0,v1,v2,shape⟩ := List.length_eq_three.mp three
      rw [shape] at digits ⊢
      simp only [List.forall_mem_cons] at digits
      exact three_left digits.1 digits.2.1 digits.2.2.1

theorem strict_sound {input : List UInt8} {read : Nat} {written : List UInt8} (spacious : Spacious cap bounded input)
    (decoded : base64DecodeStrict input url lastChunk cap bounded = .ok (read,written)) :
    read ≤ input.length ∧ written.length ≤ cap ∧ base64DecodeIntoBuffer (input.take read) = written := by
  unfold base64DecodeStrict at decoded
  cases scanned : scan url cap bounded 0 ⟨[],[],0,false,0⟩ input with
  | error message =>
    rw [scanned] at decoded
    cases decoded
  | ok result =>
    rw [scanned] at decoded
    obtain ⟨front,rest,ended,split,stands,rfl | rfl⟩ := scan_stands (Stands.start cap) spacious scanned
    · obtain ⟨rfl,rfl⟩ := Prod.mk.inj (Except.ok.inj decoded)
      rw [List.nil_append] at split
      rw [split]
      exact ⟨stands.passed.trans (by simp),stands.fits,stands.decoded rest⟩
    · rw [List.nil_append] at split
      rw [split] at spacious ⊢
      obtain ⟨inside,fits,same⟩ := finish_sound stands spacious decoded
      exact ⟨inside.trans (by simp),fits,same⟩

end Agreement

section RoundTrip

variable {cap i n : Nat} {rest bytes : List UInt8} {state : Strict} {url bounded omitPadding : Bool} {lastChunk : LastChunk}

def encodeTable (url : Bool) : Nat → UInt8 := if url then base64urlEncodeTable else base64EncodeTable

theorem encodeTable_read (url : Bool) : ∀ n < 64,isB64Whitespace (encodeTable url n) = false ∧ encodeTable url n ≠ 0x3d ∧
    (if url then urlDecode (encodeTable url n) else stdDecode (encodeTable url n)) = n := by
  cases url <;> decide

theorem scan_value (fits : n < 64) (unpadded : state.sawPadding = false) (short : state.group.length < 3) :
    scan url cap bounded i state (encodeTable url n :: rest) =
      scan url cap bounded (i + 1) { state with group := state.group ++ [n] } rest := by
  obtain ⟨visible,other,value⟩ := encodeTable_read url n fits
  have present : n ≠ 255 := by omega
  have growing : (state.group ++ [n]).length ≠ 4 := by
    rw [List.length_append,List.length_singleton]
    omega
  rw [scan,visible,if_neg Bool.false_ne_true,if_neg other,unpadded,if_neg Bool.false_ne_true,value]
  dsimp only
  rw [if_neg present,if_neg growing]

theorem scan_group (fits : n < 64) (unpadded : state.sawPadding = false) (full : state.group.length = 3)
    (room : state.written.length + 3 ≤ cap) : scan url cap bounded i state (encodeTable url n :: rest) = scan url cap bounded (i + 1)
      { state with written := state.written ++ groupBytes (state.group ++ [n]),group := [],lastGroupEnd := i + 1 } rest := by
  obtain ⟨visible,other,value⟩ := encodeTable_read url n fits
  have present : n ≠ 255 := by omega
  have whole : (state.group ++ [n]).length = 4 := by
    rw [List.length_append,List.length_singleton,full]
  have roomy : ¬cap < state.written.length + 3 := by omega
  rw [scan,visible,if_neg Bool.false_ne_true,if_neg other,unpadded,if_neg Bool.false_ne_true,value]
  dsimp only
  rw [if_neg present,if_pos whole,if_neg roomy]

theorem scan_pad (three : state.group.length = 3) (count : state.padCount = 0) : scan url cap bounded i state [0x3d] =
    .ok (.ended (i + 1) { state with sawPadding := true,padCount := 1 }) := by
  simp [scan,isB64Whitespace,three,count]

theorem scan_pads (two : state.group.length = 2) (count : state.padCount = 0) : scan url cap bounded i state [0x3d,0x3d] =
    .ok (.ended (i + 2) { state with sawPadding := true,padCount := 2 }) := by
  simp [scan,isB64Whitespace,two,count]

/-- A last group that is not complete, as an encoder leaves it. -/
structure Cut (cap : Nat) (padding : Bool) (state : Strict) : Prop where
  several : 2 ≤ state.group.length
  room : state.written.length + (state.group.length - 1) ≤ cap
  zero : extraBitsZero state.group
  same : state.sawPadding = padding
  threes : 3 ∣ state.written.length

/-- How the text of a number of bytes ends. -/
def Ending (cap i : Nat) (padding : Bool) (count : Nat) (state : Strict) : Prop :=
  3 ∣ count ∧ state.group = [] ∧ state.lastGroupEnd = i ∨ ¬3 ∣ count ∧ Cut cap padding state

theorem scan_encoded {padding : Bool} {written : List UInt8} (room : written.length + bytes.length ≤ cap)
    (threes : 3 ∣ written.length) : ∃ state,scan url cap bounded i ⟨written,[],i,false,0⟩ (encodeWith (encodeTable url) padding bytes) =
      .ok (.ended (i + (encodeWith (encodeTable url) padding bytes).length) state) ∧
      Ending cap (i + (encodeWith (encodeTable url) padding bytes).length) padding bytes.length state := by
  have byte_lt : ∀ b : UInt8,b.toNat < 256 := fun b => b.toNat_lt
  fun_induction encodeWith (encodeTable url) padding bytes generalizing i written with
  | case1 a b c rest n =>
    rename_i ih
    have value : n = (a.toNat * 256 + b.toNat) * 256 + c.toNat := triple_eq (byte_lt b) (byte_lt c)
    have := byte_lt a
    have := byte_lt b
    have := byte_lt c
    simp only [low_sextet,Nat.shiftRight_eq_div_pow]
    simp only [List.length_cons] at room
    rw [List.cons_append,List.cons_append,List.cons_append,List.cons_append,List.nil_append,scan_value (by omega) rfl (by simp),
      scan_value (by omega) rfl (by simp),scan_value (by omega) rfl (by simp),scan_group (by omega) rfl rfl (by dsimp only; omega)]
    obtain ⟨state,scanned,ending⟩ := @ih (i + 4) (written ++ groupBytes [n / 2 ^ 18,n / 2 ^ 12 % 64,n / 2 ^ 6 % 64,n % 64])
      (by simp only [List.length_append,groupBytes,List.length_cons,List.length_nil]; omega)
      (by simpa [groupBytes] using threes)
    have length : ∀ m,i + 4 + m = i + (m + 1 + 1 + 1 + 1) := by omega
    rw [length] at scanned ending
    refine ⟨state,scanned,?_⟩
    have parts : 3 ∣ rest.length + 1 + 1 + 1 ↔ 3 ∣ rest.length := by omega
    simpa only [Ending,List.length_cons,parts] using ending
  | case2 a b =>
    rename_i n
    have value : n = (a.toNat * 256 + b.toNat) * 256 := by
      have joined := triple_eq (a := a.toNat) (byte_lt b) (show 0 < 256 by omega)
      rwa [Nat.or_zero,Nat.add_zero] at joined
    have := byte_lt a
    have := byte_lt b
    simp only [low_sextet,Nat.shiftRight_eq_div_pow]
    rw [List.cons_append,List.cons_append,List.cons_append,List.nil_append,scan_value (by omega) rfl (by simp),
      scan_value (by omega) rfl (by simp),scan_value (by omega) rfl (by simp)]
    have last : n / 2 ^ 6 % 64 % 4 = 0 := by omega
    have zero : extraBitsZero [n / 2 ^ 18,n / 2 ^ 12 % 64,n / 2 ^ 6 % 64] := by
      rw [extraBitsZero,if_neg (by simp),decide_eq_true_eq]
      exact (Nat.and_two_pow_sub_one_eq_mod _ 2).trans last
    have uneven : ¬3 ∣ [a,b].length := by simp
    cases padding with
    | true =>
      rw [if_pos rfl,scan_pad rfl rfl]
      exact ⟨_,rfl,.inr ⟨uneven,⟨by simp,room,zero,rfl,threes⟩⟩⟩
    | false =>
      rw [if_neg Bool.false_ne_true]
      exact ⟨_,rfl,.inr ⟨uneven,⟨by simp,room,zero,rfl,threes⟩⟩⟩
  | case3 a =>
    rename_i n
    have value : n = a.toNat * 65536 := Nat.shiftLeft_eq ..
    have := byte_lt a
    simp only [low_sextet,Nat.shiftRight_eq_div_pow]
    rw [List.cons_append,List.cons_append,List.nil_append,scan_value (by omega) rfl (by simp),scan_value (by omega) rfl (by simp)]
    have last : n / 2 ^ 12 % 64 % 16 = 0 := by omega
    have zero : extraBitsZero [n / 2 ^ 18,n / 2 ^ 12 % 64] := by
      rw [extraBitsZero,if_pos (by simp),decide_eq_true_eq]
      exact (Nat.and_two_pow_sub_one_eq_mod _ 4).trans last
    have uneven : ¬3 ∣ [a].length := by simp
    cases padding with
    | true =>
      rw [if_pos rfl,scan_pads rfl rfl]
      exact ⟨_,rfl,.inr ⟨uneven,⟨by simp,room,zero,rfl,threes⟩⟩⟩
    | false =>
      rw [if_neg Bool.false_ne_true]
      exact ⟨_,rfl,.inr ⟨uneven,⟨by simp,room,zero,rfl,threes⟩⟩⟩
  | case4 =>
    refine ⟨_,rfl,.inl ⟨by simp,rfl,rfl⟩⟩

/-- Whether a decoder takes the text of a number of bytes to its end. -/
def Readable (padding : Bool) (lastChunk : LastChunk) (count : Nat) : Prop := padding = true ∨ lastChunk = .loose ∨ 3 ∣ count

theorem finish_ending {padding : Bool} {count : Nat} (ending : Ending cap i padding count state) :
    (Readable padding lastChunk count → ∃ written,finish lastChunk cap bounded (.ended i state) = .ok (i,written)) ∧
    (¬Readable padding lastChunk count → ¬3 ∣ count ∧ ∀ read written,
      finish lastChunk cap bounded (.ended i state) = .ok (read,written) → 3 ∣ written.length) := by
  obtain ⟨whole,empty,rfl⟩ | ⟨uneven,cut⟩ := ending
  · refine ⟨fun _ => ⟨state.written,?_⟩,fun unread => absurd (.inr (.inr whole)) unread⟩
    simp only [finish,empty,List.length_nil,if_true]
  have several := cut.several
  have filled : ¬state.group.length = 0 := by omega
  have plural : ¬state.group.length = 1 := by omega
  constructor
  · intro readable
    have readable := readable.imp_right fun last => last.resolve_right uneven
    have patient : ¬(lastChunk = .stopBeforePartial ∧ ¬padding) := by
      rintro ⟨rfl,none⟩
      obtain padded | loose := readable
      · exact none padded
      · cases loose
    have lenient : ¬(lastChunk = .strict ∧ ¬padding) := by
      rintro ⟨rfl,none⟩
      obtain padded | loose := readable
      · exact none padded
      · cases loose
    have clean : ¬(lastChunk = .strict ∧ ¬extraBitsZero state.group) := fun strict => strict.2 cut.zero
    have room : min (state.group.length - 1) (cap - state.written.length) = state.group.length - 1 := by
      have := cut.room
      omega
    have whole : ¬(bounded = true ∧ state.group.length - 1 < state.group.length - 1) := fun short => Nat.lt_irrefl _ short.2
    rw [finish,if_neg filled,if_neg plural,cut.same,if_neg patient,if_neg lenient,if_neg clean]
    dsimp only
    rw [room,if_neg whole]
    exact ⟨_,rfl⟩
  · intro unread
    refine ⟨uneven,fun read written finished => ?_⟩
    obtain ⟨bare,unloose⟩ := not_or.mp unread
    have unloose := (not_or.mp unloose).1
    rw [finish,if_neg filled,if_neg plural,cut.same] at finished
    cases lastChunk with
    | loose => exact absurd rfl unloose
    | strict =>
      rw [if_neg (fun stop => LastChunk.noConfusion stop.1),if_pos ⟨rfl,bare⟩] at finished
      cases finished
    | stopBeforePartial =>
      rw [if_pos ⟨rfl,bare⟩] at finished
      obtain ⟨_,rfl⟩ := Prod.mk.inj (Except.ok.inj finished)
      exact cut.threes

theorem base64Encode_regroups (bytes : List UInt8) (url omitPadding : Bool) :
    Regroups 6 8 (sextets (base64Encode bytes url omitPadding)) (bytes.map UInt8.toNat) := by
  cases url with
  | true => exact encodeWith_regroups urlEncodeTable_valid
  | false => exact encodeWith_regroups encodeTable_valid

theorem encoded_read (spacious : Spacious cap bounded (base64Encode bytes url omitPadding)) (room : bytes.length ≤ cap) :
    (Readable (!omitPadding) lastChunk bytes.length → base64DecodeStrict (base64Encode bytes url omitPadding) url lastChunk cap bounded =
      .ok ((base64Encode bytes url omitPadding).length,bytes)) ∧
    (¬Readable (!omitPadding) lastChunk bytes.length → ∀ read written,
      base64DecodeStrict (base64Encode bytes url omitPadding) url lastChunk cap bounded = .ok (read,written) → written ≠ bytes) := by
  have table : base64Encode bytes url omitPadding = encodeWith (encodeTable url) (!omitPadding) bytes := rfl
  have said := decode_of_regroups (base64Encode_regroups bytes url omitPadding)
  obtain ⟨state,scanned,ending⟩ := @scan_encoded cap 0 bytes url bounded (!omitPadding) [] (by simpa using room) (by simp)
  rw [← table,Nat.zero_add] at scanned ending
  have steps : base64DecodeStrict (base64Encode bytes url omitPadding) url lastChunk cap bounded =
      finish lastChunk cap bounded (.ended (base64Encode bytes url omitPadding).length state) := by
    rw [base64DecodeStrict,scanned]
    rfl
  obtain ⟨reads,stops⟩ := finish_ending ending
  constructor
  · intro readable
    obtain ⟨written,finished⟩ := reads readable
    obtain ⟨_,_,same⟩ := strict_sound spacious (steps.trans finished)
    rw [List.take_length,said] at same
    rw [steps,finished,same]
  · intro unread
    obtain ⟨uneven,whole⟩ := stops unread
    rintro read written decoded rfl
    exact uneven (whole read written (steps ▸ decoded))

/-- Wherever decoding one alphabet succeeds it agrees with the decoder of `Buffer` on the part of the text that has been
read, and it keeps to the array; and it takes the text of an encoder back to its bytes exactly when the text is padded,
needs no padding or may do without. -/
theorem strict_decodes : (∀ length input url lastChunk read written,jsU8SetFromBase64 length input url lastChunk = .ok (read,written) →
      read ≤ input.length ∧ written.length ≤ length ∧ base64DecodeIntoBuffer (input.take read) = written) ∧
    (∀ input url lastChunk bytes,jsU8FromBase64 input url lastChunk = .ok bytes →
      ∃ read ≤ input.length,base64DecodeStrict input url lastChunk (base64MaxBytes input) false = .ok (read,bytes) ∧
        base64DecodeIntoBuffer (input.take read) = bytes) ∧
    ∀ bytes url omitPadding lastChunk,
      (jsU8FromBase64 (base64Encode bytes url omitPadding) url lastChunk = .ok bytes ↔ Readable (!omitPadding) lastChunk bytes.length) ∧
      ∀ length,bytes.length ≤ length → (jsU8SetFromBase64 length (base64Encode bytes url omitPadding) url lastChunk =
        .ok ((base64Encode bytes url omitPadding).length,bytes) ↔ Readable (!omitPadding) lastChunk bytes.length) := by
  have found : ∀ {input url lastChunk bytes},jsU8FromBase64 input url lastChunk = .ok bytes →
      ∃ read,base64DecodeStrict input url lastChunk (base64MaxBytes input) false = .ok (read,bytes) := by
    intro input url lastChunk bytes decoded
    unfold jsU8FromBase64 at decoded
    cases shape : base64DecodeStrict input url lastChunk (base64MaxBytes input) false with
    | error message =>
      rw [shape] at decoded
      cases decoded
    | ok result =>
      rw [shape] at decoded
      exact ⟨result.1,congrArg Except.ok (Prod.ext rfl (Except.ok.inj decoded))⟩
  refine ⟨fun length input url lastChunk read written decoded => strict_sound (.inl rfl) decoded,?_,?_⟩
  · intro input url lastChunk bytes decoded
    obtain ⟨read,decoded⟩ := found decoded
    obtain ⟨inside,_,same⟩ := strict_sound (.inr (Nat.le_refl _)) decoded
    exact ⟨read,inside,decoded,same⟩
  intro bytes url omitPadding lastChunk
  constructor
  · have room : bytes.length ≤ base64MaxBytes (base64Encode bytes url omitPadding) := by
      have lengths := (base64Encode_regroups bytes url omitPadding).length_le
      have fewer := sextets_length_le (base64Encode bytes url omitPadding)
      rw [List.length_map] at lengths
      rw [base64MaxBytes]
      omega
    obtain ⟨reads,stops⟩ := encoded_read (.inr (Nat.le_refl _)) room
    constructor
    · intro decoded
      obtain ⟨read,decoded⟩ := found decoded
      by_contra unread
      exact stops unread _ _ decoded rfl
    · intro readable
      rw [jsU8FromBase64,reads readable]
      rfl
  · intro length room
    obtain ⟨reads,stops⟩ := encoded_read (.inl rfl) room
    refine ⟨fun decoded => ?_,reads⟩
    by_contra unread
    exact stops unread _ _ decoded rfl

end RoundTrip

end Perry.Runtime.Base64
