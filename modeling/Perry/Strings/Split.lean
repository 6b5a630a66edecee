import Perry.Containers.Occurrences
import Perry.Strings.Header

/-! `split` by a string, and the functions that read one part without building the array. An empty
delimiter cuts between code units, so that a sequence of four bytes gives two parts. -/
namespace Perry.Strings

open Containers Unicode

/-- The sequences of a walk from lead byte to lead byte: the step and the bytes it is over. -/
def sequencesAfter : Nat → List UInt8 → List (Wtf8Step × List UInt8)
  | _,[] => []
  | 0,b :: rest =>
    (wtf8Step b rest,(b :: rest).take (wtf8Step b rest).advance) :: sequencesAfter ((wtf8Step b rest).advance - 1) rest
  | skip + 1,_ :: rest => sequencesAfter skip rest

def sequences (bytes : List UInt8) : List (Wtf8Step × List UInt8) := sequencesAfter 0 bytes

def isAstral (step : Wtf8Step) : Bool := step.units = 2 ∧ 0x10000 ≤ step.codePoint

def highHalf (step : Wtf8Step) : Nat := 0xD800 + (step.codePoint - 0x10000) / 1024

def lowHalf (step : Wtf8Step) : Nat := 0xDC00 + (step.codePoint - 0x10000) % 1024

def stringFromCodeUnit (unit : Nat) : StringHeader :=
  if unit < 0x80 then ⟨1,0,[.ofNat unit]⟩
  else if isSurrogate unit then jsStringFromWtf8Bytes (encodeUtf8 unit)
  else jsStringFromBytes (encodeUtf8 unit)

/-- A sequence that is copied as it is, out of a string that has lone surrogates or not. -/
def stringFromSequence (srcHasLoneSurrogates : Bool) (seq : List UInt8) : StringHeader :=
  if srcHasLoneSurrogates && bytesHaveLoneSurrogate seq then jsStringFromWtf8Bytes seq else jsStringFromBytes seq

/-- A part whose metadata come from its own bytes. -/
def stringFromRange (s : StringHeader) (range : Nat × Nat) : StringHeader :=
  let part := stretch s.bytes range
  if allAscii s.bytes then ⟨part.length,0,part⟩
  else
    ⟨computeUtf16Len part,if hasLoneSurrogates s && bytesHaveLoneSurrogate part then stringFlagHasLoneSurrogates else 0,part⟩

section array

/-- Counts so many units one by one, and whether the limit was reached. -/
def countUnits (limit : Int) : Nat → Nat → Nat × Bool
  | 0,n => (n,false)
  | units + 1,n => if 0 < limit ∧ limit ≤ (n + 1 : Nat) then (n + 1,true) else countUnits limit units (n + 1)

/-- The first pass: how many parts there are. -/
def countParts (limit : Int) : Nat → List (Wtf8Step × List UInt8) → Nat
  | n,[] => n
  | n,(step,_) :: later =>
    let (n,reached) := countUnits limit (max step.units 1) n
    if reached then n else countParts limit n later

/-- The second pass: a low half is held back until the next part. -/
def fillParts (srcHasLoneSurrogates : Bool) : Nat → Option Nat → List (Wtf8Step × List UInt8) → List StringHeader
  | 0,_,_ => []
  | n + 1,some unit,later => stringFromCodeUnit unit :: fillParts srcHasLoneSurrogates n none later
  | _ + 1,none,[] => []
  | n + 1,none,(step,seq) :: later =>
    if isAstral step then
      stringFromCodeUnit (highHalf step) :: fillParts srcHasLoneSurrogates n (some (lowHalf step)) later
    else stringFromSequence srcHasLoneSurrogates seq :: fillParts srcHasLoneSurrogates n none later

/-- `js_string_split_n` for a delimiter that is a string. -/
def jsStringSplitN (s delimiter : StringHeader) (limit : Int) : List StringHeader :=
  if limit = 0 then []
  else if delimiter.bytes.isEmpty then
    fillParts (hasLoneSurrogates s) (countParts limit 0 (sequences s.bytes)) none (sequences s.bytes)
  else
    let partRanges := splitRanges delimiter.bytes s.bytes
    let partRanges := if 0 < limit ∧ limit < partRanges.length then partRanges.take limit.toNat else partRanges
    partRanges.map (stringFromRange s)

def jsStringSplit (s delimiter : StringHeader) : List StringHeader := jsStringSplitN s delimiter (-1)

end array

section parts

inductive EmptyDelimiterPart
  | bytes (seq : List UInt8)
  | surrogate (unit : Nat)
  deriving DecidableEq,Repr

/-- One part of a split between units, and how many units it has. -/
def emptyDelimiterPart : List (Wtf8Step × List UInt8) → Nat → Option (EmptyDelimiterPart × Nat)
  | [],_ => none
  | (step,seq) :: later,remaining =>
    let parts := max step.units 1
    if remaining < parts then
      if isAstral step then some (.surrogate (if remaining = 0 then highHalf step else lowHalf step),1)
      else some (.bytes seq,step.units)
    else emptyDelimiterPart later (remaining - parts)

/-- The scan for one part: a delimiter of some width is found at a place or not. -/
def scanPart (found : Nat → Bool) (width length target partStart partIndex scan : Nat) : Option (Nat × Nat) :=
  if scan + width ≤ length ∧ 0 < width then
    if found scan then
      if partIndex = target then some (partStart,scan)
      else scanPart found width length target (scan + width) (partIndex + 1) (scan + width)
    else scanPart found width length target partStart partIndex (scan + 1)
  else if partIndex = target then some (partStart,length) else none
termination_by length + 1 - scan

def splitPartByteRange (source delimiter : List UInt8) (target : Nat) : Option (Nat × Nat) :=
  scanPart (fun scan => delimiter.isPrefixOf (source.drop scan)) delimiter.length source.length target 0 0 0

def jsStringSplitPartValue (s delimiter : StringHeader) (index : Int) : Option StringHeader :=
  if index < 0 then none
  else if delimiter.bytes.isEmpty then
    match emptyDelimiterPart (sequences s.bytes) index.toNat with
    | none => none
    | some (.surrogate unit,_) => some (stringFromCodeUnit unit)
    | some (.bytes seq,_) => some (stringFromSequence (hasLoneSurrogates s) seq)
  else
    match splitPartByteRange s.bytes delimiter.bytes index.toNat with
    | none => none
    | some range => some (stringFromRange s range)

def jsStringSplitPartUtf16Length (s delimiter : StringHeader) (index : Int) : Nat :=
  if index < 0 then 0
  else if delimiter.bytes.isEmpty then
    match emptyDelimiterPart (sequences s.bytes) index.toNat with
    | some (_,units) => units
    | none => 0
  else
    match splitPartByteRange s.bytes delimiter.bytes index.toNat with
    | none => 0
    | some range =>
      let part := stretch s.bytes range
      if allAscii part then part.length else computeUtf16Len part

end parts

section cases

def asciiUpperByte (byte : UInt8) : UInt8 := if 0x61 ≤ byte ∧ byte ≤ 0x7A then byte - 0x20 else byte

/-- What is known of `char::to_uppercase`: it gives characters, and ASCII letters for ASCII ones. -/
structure CaseMapping where
  toUppercase : Nat → List Nat
  scalars : ∀ c,∀ u ∈ toUppercase c,isScalar u = true
  ascii : ∀ byte : UInt8,byte.toNat < 0x80 → toUppercase byte.toNat = [(asciiUpperByte byte).toNat]

/-- The character a sequence stands for, if it is whole and stands for one. -/
def mapped (sequence : Wtf8Step × List UInt8) : Option Nat :=
  if 0 < sequence.1.units ∧ sequence.1.advance = sequence.2.length ∧ isScalar sequence.1.codePoint then
    some sequence.1.codePoint
  else none

/-- The characters it is mapped to, or its own bytes. -/
def converted (mapping : Nat → List Nat) (sequence : Wtf8Step × List UInt8) : List UInt8 :=
  match mapped sequence with
  | some c => wtf8 (mapping c)
  | none => sequence.2

def caseConvert (mapping : Nat → List Nat) (s : StringHeader) : StringHeader :=
  let out := (sequences s.bytes).flatMap (converted mapping)
  let hasLoneSurrogate := (sequences s.bytes).any fun sequence =>
    (mapped sequence).isNone && isSurrogate sequence.1.codePoint
  if hasLoneSurrogate || hasLoneSurrogates s then jsStringFromWtf8Bytes out else jsStringFromBytes out

def jsStringToUpperCase (mapping : CaseMapping) (s : StringHeader) : StringHeader := caseConvert mapping.toUppercase s

def jsStringToUpperCaseSplitPartUtf16Length (mapping : CaseMapping) (s delimiter : StringHeader) (index : Int) : Nat :=
  if index < 0 then 0
  else if ¬ allAscii s.bytes then jsStringSplitPartUtf16Length (jsStringToUpperCase mapping s) delimiter index
  else if delimiter.bytes.isEmpty then if index.toNat < s.bytes.length then 1 else 0
  else if ¬ allAscii delimiter.bytes then if index = 0 then s.bytes.length else 0
  else
    let found scan := (((s.bytes.drop scan).take delimiter.bytes.length).zip delimiter.bytes).all fun (sourceByte,delimiterByte) =>
      asciiUpperByte sourceByte = delimiterByte
    match scanPart found delimiter.bytes.length s.bytes.length index.toNat 0 0 0 with
    | some (partStart,scan) => scan - partStart
    | none => 0

end cases

end Perry.Strings
