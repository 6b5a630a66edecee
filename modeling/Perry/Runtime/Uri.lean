import Perry.Unicode.Points

/-! The URI codecs of `builtins/globals.rs`: bytes are escaped one at a time, and escapes are taken back where they spell
whole code points. -/
namespace Perry.Runtime.Uri

open Perry.Unicode

def uriUnescaped : List UInt8 :=
  (List.range 26).map (fun n => UInt8.ofNat (65 + n)) ++ (List.range 26).map (fun n => UInt8.ofNat (97 + n)) ++
    (List.range 10).map (fun n => UInt8.ofNat (48 + n)) ++ [0x2d,0x5f,0x2e,0x21,0x7e,0x2a,0x27,0x28,0x29]

def uriReserved : List UInt8 := [0x3b,0x2f,0x3f,0x3a,0x40,0x26,0x3d,0x2b,0x24,0x2c,0x23]

/-- The digit that `{:02X}` prints. -/
def upperDigit (n : Nat) : UInt8 := if n < 10 then UInt8.ofNat (48 + n) else UInt8.ofNat (55 + n)

def escapeOf (byte : UInt8) : List UInt8 := [0x25,upperDigit (byte.toNat / 16),upperDigit (byte.toNat % 16)]

def percentEncode (input safeChars : List UInt8) : List UInt8 :=
  input.flatMap fun byte => if safeChars.contains byte then [byte] else escapeOf byte

def hexDigit (b : UInt8) : Option Nat :=
  if 48 ≤ b ∧ b ≤ 57 then some (b.toNat - 48)
  else if 97 ≤ b ∧ b ≤ 102 then some (b.toNat - 97 + 10)
  else if 65 ≤ b ∧ b ≤ 70 then some (b.toNat - 65 + 10)
  else none

/-- An octet that an escape in front spells, and what is behind it. -/
def readPctOctet : List UInt8 → Option (Nat × List UInt8)
  | p :: h :: l :: rest =>
    if p = 0x25 then (hexDigit h).bind fun high => (hexDigit l).map fun low => (high * 16 + low,rest)
    else none
  | _ => none

/-- The loop over the continuation octets. -/
def continuations : Nat → Nat → List UInt8 → Option (Nat × List UInt8)
  | 0,cp,rest => some (cp,rest)
  | n + 1,cp,rest => (readPctOctet rest).bind fun octet =>
    if octet.1 &&& 0xC0 ≠ 0x80 then none else continuations n (cp <<< 6 ||| octet.1 &&& 0x3F) octet.2

def sequenceLength (b : Nat) : Option Nat :=
  if b &&& 0xE0 = 0xC0 then some 2
  else if b &&& 0xF0 = 0xE0 then some 3
  else if b &&& 0xF8 = 0xF0 then some 4
  else none

def least (n : Nat) : Nat := if n = 2 then 0x80 else if n = 3 then 0x800 else 0x10000

/-- The code point that an octet begins. -/
def multiOctet (b : Nat) (rest : List UInt8) : Option (Nat × List UInt8) :=
  (sequenceLength b).bind fun n => (continuations (n - 1) (b &&& 0x7F >>> n) rest).bind fun point =>
    if point.1 < least n ∨ 0x10FFFF < point.1 ∨ 0xD800 ≤ point.1 ∧ point.1 ≤ 0xDFFF then none else some point

/-- The loop of the decoder. Every round reads a byte, so the length of the text is fuel enough. -/
def percentDecodeFrom (reserved : Option (List UInt8)) : Nat → List UInt8 → Option (List UInt8)
  | _,[] => some []
  | 0,_ :: _ => none
  | fuel + 1,b :: rest =>
    if b ≠ 0x25 then (percentDecodeFrom reserved fuel rest).map (b :: ·)
    else (readPctOctet (b :: rest)).bind fun octet =>
      if octet.1 < 0x80 then
        (percentDecodeFrom reserved fuel octet.2).map
          ((if reserved.any (·.contains (UInt8.ofNat octet.1)) then (b :: rest).take 3 else [UInt8.ofNat octet.1]) ++ ·)
      else (multiOctet octet.1 octet.2).bind fun point => (percentDecodeFrom reserved fuel point.2).map (encodeUtf8 point.1 ++ ·)

def percentDecode (bytes : List UInt8) (reserved : Option (List UInt8)) : Option (List UInt8) :=
  percentDecodeFrom reserved bytes.length bytes

/-- A string whose header says that it has a lone surrogate is refused. -/
def jsEncodeUri (loneSurrogates : Bool) (bytes : List UInt8) : Option (List UInt8) :=
  if loneSurrogates then none else some (percentEncode bytes (uriUnescaped ++ uriReserved))

def jsDecodeUri (bytes : List UInt8) : Option (List UInt8) := percentDecode bytes (some uriReserved)

def jsEncodeUriComponent (loneSurrogates : Bool) (bytes : List UInt8) : Option (List UInt8) :=
  if loneSurrogates then none else some (percentEncode bytes uriUnescaped)

def jsDecodeUriComponent (bytes : List UInt8) : Option (List UInt8) := percentDecode bytes none

/-- A row of escapes, and the octets that they spell. -/
inductive Escapes : List UInt8 → List Nat → Prop
  | nil : Escapes [] []
  | cons {h l : UInt8} {high low : Nat} {text : List UInt8} {octets : List Nat} (first : hexDigit h = some high)
      (second : hexDigit l = some low) (rest : Escapes text octets) : Escapes (0x25 :: h :: l :: text) ((high * 16 + low) :: octets)

/-- What a text is decoded to: the escapes of a code point are its bytes, but for those of reserved characters. -/
inductive Decodes (reserved : Option (List UInt8)) : List UInt8 → List UInt8 → Prop
  | nil : Decodes reserved [] []
  | plain {b : UInt8} {text out : List UInt8} (plain : b ≠ 0x25) (rest : Decodes reserved text out) :
      Decodes reserved (b :: text) (b :: out)
  | kept {b : UInt8} {escape text out : List UInt8} (ascii : b.toNat < 0x80) (kept : reserved.any (·.contains b) = true)
      (escapes : Escapes escape [b.toNat]) (rest : Decodes reserved text out) : Decodes reserved (escape ++ text) (escape ++ out)
  | point {c : Nat} {escape text out : List UInt8} (scalar : isScalar c = true)
      (free : ¬(c < 0x80 ∧ reserved.any (·.contains (UInt8.ofNat c)) = true))
      (escapes : Escapes escape ((encodeUtf8 c).map UInt8.toNat)) (rest : Decodes reserved text out) :
      Decodes reserved (escape ++ text) (encodeUtf8 c ++ out)

section Octets

variable {b n cp v c : Nat} {input rest text : List UInt8} {octets : List Nat}

theorem hexDigit_lt {b : UInt8} {v : Nat} (digit : hexDigit b = some v) : v < 16 := by
  simp only [hexDigit,UInt8.le_iff_toNat_le] at digit
  split_ifs at digit with decimal lower upper
  · obtain rfl := Option.some.inj digit
    have : b.toNat ≤ 57 := decimal.2
    omega
  · obtain rfl := Option.some.inj digit
    have : b.toNat ≤ 102 := lower.2
    omega
  · obtain rfl := Option.some.inj digit
    have : b.toNat ≤ 70 := upper.2
    omega

theorem Escapes.lt (escapes : Escapes text octets) : ∀ v ∈ octets,v < 256 := by
  induction escapes with
  | nil => exact List.forall_mem_nil _
  | cons first second _ ih =>
    have high := hexDigit_lt first
    have low := hexDigit_lt second
    exact List.forall_mem_cons.mpr ⟨by omega,ih⟩

theorem Escapes.length (escapes : Escapes text octets) : text.length = 3 * octets.length := by
  induction escapes with
  | nil => rfl
  | cons _ _ _ ih =>
    simp only [List.length_cons,ih]
    omega

theorem Escapes.append {back : List UInt8} {others : List Nat} (escapes : Escapes text octets) (rest : Escapes back others) :
    Escapes (text ++ back) (octets ++ others) := by
  induction escapes with
  | nil => exact rest
  | cons first second _ ih => exact .cons first second ih

theorem readPctOctet_iff : readPctOctet input = some (v,rest) ↔ ∃ text,input = text ++ rest ∧ Escapes text [v] := by
  constructor
  · intro read
    obtain _ | ⟨p,_ | ⟨h,_ | ⟨l,back⟩⟩⟩ := input
    · cases read
    · cases read
    · cases read
    rw [readPctOctet] at read
    split at read
    · next percent =>
      obtain ⟨high,first,read⟩ := Option.bind_eq_some_iff.mp read
      obtain ⟨low,second,read⟩ := Option.map_eq_some_iff.mp read
      obtain ⟨rfl,rfl⟩ := Prod.mk.inj read
      exact ⟨[p,h,l],rfl,percent ▸ .cons first second .nil⟩
    · cases read
  · rintro ⟨text,rfl,escapes⟩
    cases escapes with
    | cons first second none =>
      cases none
      simp [readPctOctet,first,second]

theorem continuation_bits : ∀ v < 256,(v &&& 0xC0 = 0x80 ↔ 0x80 ≤ v ∧ v < 0xC0) := by decide +kernel

theorem two_bits : ∀ v < 256,(v &&& 0xE0 = 0xC0 ↔ 0xC0 ≤ v ∧ v < 0xE0) := by decide +kernel

theorem three_bits : ∀ v < 256,(v &&& 0xF0 = 0xE0 ↔ 0xE0 ≤ v ∧ v < 0xF0) := by decide +kernel

theorem four_bits : ∀ v < 256,(v &&& 0xF8 = 0xF0 ↔ 0xF0 ≤ v ∧ v < 0xF8) := by decide +kernel

theorem append_bits (cp v : Nat) : cp <<< 6 ||| v &&& 0x3F = cp * 64 + v % 64 := by
  rw [show v &&& 0x3F = v % 2 ^ 6 from Nat.and_two_pow_sub_one_eq_mod v 6,
    ← Nat.shiftLeft_add_eq_or_of_lt (Nat.mod_lt _ (Nat.two_pow_pos 6)),Nat.shiftLeft_eq]

theorem continuations_iff : continuations n cp input = some (c,rest) ↔ ∃ text octets,input = text ++ rest ∧ Escapes text octets ∧
    octets.length = n ∧ (∀ v ∈ octets,0x80 ≤ v ∧ v < 0xC0) ∧ octets.foldl (fun cp v => cp * 64 + v % 64) cp = c := by
  induction n generalizing cp input with
  | zero =>
    rw [continuations,Option.some.injEq,Prod.mk.injEq]
    constructor
    · rintro ⟨rfl,rfl⟩
      exact ⟨[],[],rfl,.nil,rfl,List.forall_mem_nil _,rfl⟩
    · rintro ⟨text,octets,rfl,escapes,none,_,rfl⟩
      obtain rfl := List.length_eq_zero_iff.mp none
      cases escapes
      exact ⟨rfl,rfl⟩
  | succ n ih =>
    rw [continuations,Option.bind_eq_some_iff]
    constructor
    · rintro ⟨⟨v,back⟩,read,step⟩
      obtain ⟨first,rfl,escape⟩ := readPctOctet_iff.mp read
      dsimp only at step
      split at step
      · cases step
      next follows =>
      have bits := (continuation_bits v (escape.lt v (List.mem_singleton_self v))).mp (Decidable.not_not.mp follows)
      obtain ⟨text,octets,rfl,escapes,length,range,value⟩ := ih.mp step
      rw [append_bits] at value
      exact ⟨first ++ text,v :: octets,(List.append_assoc ..).symm,escape.append escapes,by rw [List.length_cons,length],
        List.forall_mem_cons.mpr ⟨bits,range⟩,value⟩
    · rintro ⟨text,octets,rfl,escapes,length,range,value⟩
      cases escapes with
      | nil => cases length
      | @cons h l high low text octets first second escapes =>
        obtain ⟨bits,range⟩ := List.forall_mem_cons.mp range
        refine ⟨(high * 16 + low,text ++ rest),readPctOctet_iff.mpr ⟨[0x25,h,l],rfl,.cons first second .nil⟩,?_⟩
        have follows := (continuation_bits _ (by have := bits.2; omega)).mpr bits
        dsimp only
        rw [if_neg (Decidable.not_not.mpr follows),ih]
        refine ⟨text,octets,rfl,escapes,Nat.succ.inj length,range,?_⟩
        rwa [append_bits]

theorem sequenceLength_iff (small : b < 256) : sequenceLength b = some n ↔
    n = 2 ∧ 0xC0 ≤ b ∧ b < 0xE0 ∨ n = 3 ∧ 0xE0 ≤ b ∧ b < 0xF0 ∨ n = 4 ∧ 0xF0 ≤ b ∧ b < 0xF8 := by
  simp only [sequenceLength,two_bits b small,three_bits b small,four_bits b small]
  split_ifs with two three four
  · simp only [Option.some.injEq]
    omega
  · simp only [Option.some.injEq]
    omega
  · simp only [Option.some.injEq]
    omega
  · simp only [false_iff]
    omega

theorem multiOctet_iff (small : b < 256) : multiOctet b input = some (c,rest) ↔ isScalar c = true ∧ ∃ text octets,input = text ++ rest ∧
    Escapes text octets ∧ 0x80 ≤ c ∧ digits c = b :: octets := by
  have low : ∀ m,b &&& 2 ^ m - 1 = b % 2 ^ m := Nat.and_two_pow_sub_one_eq_mod b
  unfold multiOctet
  rw [Option.bind_eq_some_iff]
  constructor
  · rintro ⟨n,length,step⟩
    obtain ⟨⟨cp,back⟩,read,step⟩ := Option.bind_eq_some_iff.mp step
    dsimp only at step
    split at step
    · cases step
    next valid =>
    obtain ⟨rfl,rfl⟩ := Prod.mk.inj (Option.some.inj step)
    obtain ⟨text,octets,rfl,escapes,count,range,value⟩ := continuations_iff.mp read
    have scalar : isScalar cp = true := by
      rw [isScalar,decide_eq_true_iff]
      omega
    refine ⟨scalar,text,octets,rfl,escapes,?_⟩
    obtain ⟨rfl,lead⟩ | ⟨rfl,lead⟩ | ⟨rfl,lead⟩ := (sequenceLength_iff small).mp length
    · obtain ⟨v,rfl⟩ := List.length_eq_one_iff.mp count
      have mask : b &&& 0x7F >>> 2 = b % 32 := low 5
      simp only [List.forall_mem_singleton,List.foldl_cons,List.foldl_nil,mask,least,if_true] at range value valid
      refine ⟨by omega,?_⟩
      rw [digits,if_neg (by omega),if_pos (by omega)]
      congr 1
      · omega
      · congr 1
        omega
    · obtain ⟨v,w,rfl⟩ := List.length_eq_two.mp count
      have mask : b &&& 0x7F >>> 3 = b % 16 := low 4
      simp only [List.forall_mem_cons,List.foldl_cons,List.foldl_nil,mask,least] at range value valid
      norm_num at valid
      refine ⟨by omega,?_⟩
      rw [digits,if_neg (by omega),if_neg (by omega),if_pos (by omega)]
      congr 1
      · omega
      · congr 1
        · omega
        · congr 1
          omega
    · obtain ⟨v,w,x,rfl⟩ := List.length_eq_three.mp count
      have mask : b &&& 0x7F >>> 4 = b % 8 := low 3
      simp only [List.forall_mem_cons,List.foldl_cons,List.foldl_nil,mask,least] at range value valid
      norm_num at valid
      refine ⟨by omega,?_⟩
      rw [digits,if_neg (by omega),if_neg (by omega),if_neg (by omega)]
      congr 1
      · omega
      · congr 1
        · omega
        · congr 1
          · omega
          · congr 1
            omega
  · rintro ⟨scalar,text,octets,rfl,escapes,wide,same⟩
    have valid := scalar
    rw [isScalar,decide_eq_true_iff] at valid
    unfold digits at same
    split_ifs at same with one two three
    · omega
    · obtain ⟨rfl,rfl⟩ := List.cons.inj same
      have mask : (0xC0 + c / 64) &&& 0x7F >>> 2 = (0xC0 + c / 64) % 32 := low 5
      refine ⟨2,(sequenceLength_iff small).mpr (by omega),Option.bind_eq_some_iff.mpr
        ⟨(c,rest),continuations_iff.mpr ⟨text,_,rfl,escapes,rfl,?_,?_⟩,?_⟩⟩
      · simp only [List.forall_mem_singleton]
        omega
      · simp only [List.foldl_cons,List.foldl_nil,mask]
        omega
      · rw [if_neg (by norm_num [least]; omega)]
    · obtain ⟨rfl,rfl⟩ := List.cons.inj same
      have mask : (0xE0 + c / 4096) &&& 0x7F >>> 3 = (0xE0 + c / 4096) % 16 := low 4
      refine ⟨3,(sequenceLength_iff small).mpr (by omega),Option.bind_eq_some_iff.mpr
        ⟨(c,rest),continuations_iff.mpr ⟨text,_,rfl,escapes,rfl,?_,?_⟩,?_⟩⟩
      · simp only [List.forall_mem_cons]
        exact ⟨by omega,by omega,List.forall_mem_nil _⟩
      · simp only [List.foldl_cons,List.foldl_nil,mask]
        omega
      · rw [if_neg (by norm_num [least]; omega)]
    · obtain ⟨rfl,rfl⟩ := List.cons.inj same
      have mask : (0xF0 + c / 262144) &&& 0x7F >>> 4 = (0xF0 + c / 262144) % 8 := low 3
      refine ⟨4,(sequenceLength_iff small).mpr (by omega),Option.bind_eq_some_iff.mpr
        ⟨(c,rest),continuations_iff.mpr ⟨text,_,rfl,escapes,rfl,?_,?_⟩,?_⟩⟩
      · simp only [List.forall_mem_cons]
        exact ⟨by omega,by omega,by omega,List.forall_mem_nil _⟩
      · simp only [List.foldl_cons,List.foldl_nil,mask]
        omega
      · rw [if_neg (by norm_num [least]; omega)]

end Octets

section Decoding

variable {reserved : Option (List UInt8)} {input out text : List UInt8} {fuel : Nat}

theorem percentDecodeFrom_sound (decoded : percentDecodeFrom reserved fuel input = some out) : Decodes reserved input out := by
  induction fuel generalizing input out with
  | zero =>
    cases input with
    | nil =>
      rw [percentDecodeFrom,Option.some.injEq] at decoded
      exact decoded ▸ .nil
    | cons b rest => cases decoded
  | succ fuel ih =>
    cases input with
    | nil =>
      rw [percentDecodeFrom,Option.some.injEq] at decoded
      exact decoded ▸ .nil
    | cons b rest =>
      rw [percentDecodeFrom] at decoded
      split at decoded
      · next plain =>
        obtain ⟨out,later,rfl⟩ := Option.map_eq_some_iff.mp decoded
        exact .plain plain (ih later)
      obtain ⟨⟨v,back⟩,read,decoded⟩ := Option.bind_eq_some_iff.mp decoded
      obtain ⟨escape,split_text,escapes⟩ := readPctOctet_iff.mp read
      have small := escapes.lt v (List.mem_singleton_self v)
      have length : escape.length = 3 := escapes.length
      rw [split_text] at decoded ⊢
      dsimp only at decoded
      split at decoded
      · next ascii =>
        obtain ⟨out,later,rfl⟩ := Option.map_eq_some_iff.mp decoded
        have value : (UInt8.ofNat v).toNat = v := toNat_ofNat_of_lt small
        split
        · next kept =>
          rw [← length,List.take_left]
          exact .kept (by rwa [value]) kept (by rwa [value]) (ih later)
        · next free =>
          have spelled : encodeUtf8 v = [UInt8.ofNat v] := by rw [encodeUtf8,if_pos ascii]
          rw [← spelled]
          refine .point ?_ (fun both => free both.2) ?_ (ih later)
          · rw [isScalar,decide_eq_true_iff]
            omega
          · rwa [spelled,List.map_singleton,value]
      · next wide =>
        obtain ⟨⟨c,after⟩,point,decoded⟩ := Option.bind_eq_some_iff.mp decoded
        obtain ⟨out,later,rfl⟩ := Option.map_eq_some_iff.mp decoded
        obtain ⟨scalar,text,octets,rfl,others,large,same⟩ := (multiOctet_iff small).mp point
        have bound := scalar
        rw [isScalar,decide_eq_true_iff] at bound
        rw [← List.append_assoc]
        refine .point scalar (fun both => absurd large (Nat.not_le_of_lt both.1)) ?_ (ih later)
        rw [digits_toNat bound.1,same]
        exact escapes.append others

theorem percentDecodeFrom_escape {v : Nat} {escape : List UInt8} (escapes : Escapes escape [v]) (text : List UInt8) :
    percentDecodeFrom reserved (fuel + 1) (escape ++ text) = if v < 0x80 then
      (percentDecodeFrom reserved fuel text).map
        ((if reserved.any (·.contains (UInt8.ofNat v)) then escape else [UInt8.ofNat v]) ++ ·)
      else (multiOctet v text).bind fun point => (percentDecodeFrom reserved fuel point.2).map (encodeUtf8 point.1 ++ ·) := by
  have read : readPctOctet (escape ++ text) = some (v,text) := readPctOctet_iff.mpr ⟨escape,rfl,escapes⟩
  cases escapes with
  | @cons h l high low text' octets first second none =>
    cases none
    rw [List.cons_append] at read ⊢
    rw [percentDecodeFrom,if_neg (by simp),read,Option.bind_some]
    rfl

/-- A text that decodes is decoded, with fuel for its length. -/
theorem percentDecodeFrom_complete (decodes : Decodes reserved input out) (enough : input.length ≤ fuel) :
    percentDecodeFrom reserved fuel input = some out := by
  induction decodes generalizing fuel with
  | nil => cases fuel <;> rfl
  | plain plain _ ih =>
    cases fuel with
    | zero => cases enough
    | succ fuel => rw [percentDecodeFrom,if_pos plain,ih (Nat.le_of_succ_le_succ enough),Option.map_some]
  | @kept b escape text out ascii kept escapes _ ih =>
    have length : escape.length = 3 := escapes.length
    rw [List.length_append,length] at enough
    obtain ⟨fuel,rfl⟩ := Nat.exists_eq_add_of_lt (show 0 < fuel by omega)
    rw [Nat.zero_add,percentDecodeFrom_escape escapes,if_pos ascii,UInt8.ofNat_toNat,if_pos kept,ih (by omega),Option.map_some]
  | @point c escape text out scalar free escapes _ ih =>
    have bound := scalar
    rw [isScalar,decide_eq_true_iff] at bound
    rw [digits_toNat bound.1] at escapes
    have length := escapes.length
    rw [List.length_append] at enough
    by_cases ascii : c < 0x80
    · rw [digits,if_pos ascii] at escapes length
      rw [List.length_singleton] at length
      have spelled : encodeUtf8 c = [UInt8.ofNat c] := by rw [encodeUtf8,if_pos ascii]
      obtain ⟨fuel,rfl⟩ := Nat.exists_eq_add_of_lt (show 0 < fuel by omega)
      rw [Nat.zero_add,percentDecodeFrom_escape escapes,if_pos ascii,if_neg (fun kept => free ⟨ascii,kept⟩),ih (by omega),
        Option.map_some,spelled]
    · have wide := Nat.le_of_not_lt ascii
      generalize shape : digits c = spelled at escapes length
      cases escapes with
      | nil =>
        unfold digits at shape
        split_ifs at shape
      | @cons h l high low others octets first second rest =>
        have lead : Escapes [0x25,h,l] [high * 16 + low] := .cons first second .nil
        have small := lead.lt _ (List.mem_singleton_self _)
        have large : ¬high * 16 + low < 0x80 := by
          unfold digits at shape
          split_ifs at shape
          · have := List.head_eq_of_cons_eq shape
            omega
          · have := List.head_eq_of_cons_eq shape
            omega
          · have := List.head_eq_of_cons_eq shape
            omega
        have point : multiOctet (high * 16 + low) (others ++ text) = some (c,text) :=
          (multiOctet_iff small).mpr ⟨scalar,others,octets,rfl,rest,wide,shape⟩
        simp only [List.length_cons] at enough
        obtain ⟨fuel,rfl⟩ := Nat.exists_eq_add_of_lt (show 0 < fuel by omega)
        have apart : 0x25 :: h :: l :: others ++ text = [0x25,h,l] ++ (others ++ text) := rfl
        rw [Nat.zero_add,apart,percentDecodeFrom_escape lead,if_neg large,point,Option.bind_some]
        dsimp only
        rw [ih (by omega),Option.map_some]

end Decoding

section Encoding

variable {reserved : Option (List UInt8)} {safeChars bytes : List UInt8} {points : List Nat}

theorem hexDigit_upperDigit : ∀ n < 16,hexDigit (upperDigit n) = some n := by decide

theorem escapeOf_escapes (b : UInt8) : Escapes (escapeOf b) [b.toNat] := by
  have small := b.toNat_lt
  have octet := Escapes.cons (hexDigit_upperDigit (b.toNat / 16) (by omega)) (hexDigit_upperDigit (b.toNat % 16) (by omega)) .nil
  rwa [Nat.mul_comm,Nat.div_add_mod] at octet

theorem wide_bytes {c : Nat} (scalar : isScalar c = true) (wide : 0x80 ≤ c) : ∀ b ∈ encodeUtf8 c,0x80 ≤ b.toNat := by
  intro b member
  rw [isScalar,decide_eq_true_iff] at scalar
  have digit : b.toNat ∈ digits c := digits_toNat scalar.1 ▸ List.mem_map_of_mem member
  unfold digits at digit
  split_ifs at digit
  · omega
  · simp only [List.mem_cons,List.not_mem_nil,or_false] at digit
    omega
  · simp only [List.mem_cons,List.not_mem_nil,or_false] at digit
    omega
  · simp only [List.mem_cons,List.not_mem_nil,or_false] at digit
    omega

theorem percentEncode_escapes (outside : ∀ b ∈ bytes,safeChars.contains b = false) :
    Escapes (percentEncode bytes safeChars) (bytes.map UInt8.toNat) := by
  induction bytes with
  | nil => exact .nil
  | cons b bytes ih =>
    obtain ⟨first,rest⟩ := List.forall_mem_cons.mp outside
    rw [percentEncode,List.flatMap_cons,first,if_neg Bool.false_ne_true]
    exact (escapeOf_escapes b).append (ih rest)

/-- The bytes of a text, where those that were escaped and are reserved stay escaped. -/
def keptBytes (reserved : Option (List UInt8)) (safeChars bytes : List UInt8) : List UInt8 :=
  bytes.flatMap fun b => if reserved.any (·.contains b) && !safeChars.contains b then escapeOf b else [b]

theorem keptBytes_free (free : ∀ b ∈ bytes,(reserved.any (·.contains b) && !safeChars.contains b) = false) :
    keptBytes reserved safeChars bytes = bytes := by
  induction bytes with
  | nil => rfl
  | cons b bytes ih =>
    obtain ⟨first,rest⟩ := List.forall_mem_cons.mp free
    rw [keptBytes,List.flatMap_cons,first,if_neg Bool.false_ne_true]
    exact congrArg (b :: ·) (ih rest)

/-- What is encoded decodes. -/
theorem encoded_decodes (scalars : ∀ c ∈ points,isScalar c = true)
    (safe : ∀ b,safeChars.contains b = true → b ≠ 0x25 ∧ b.toNat < 0x80) (ascii : ∀ b,reserved.any (·.contains b) = true → b.toNat < 0x80) :
    Decodes reserved (percentEncode (wtf8 points) safeChars) (keptBytes reserved safeChars (wtf8 points)) := by
  induction points with
  | nil => exact .nil
  | cons c points ih =>
    obtain ⟨scalar,others⟩ := List.forall_mem_cons.mp scalars
    have rest := ih others
    rw [wtf8_cons,percentEncode,keptBytes,List.flatMap_append,List.flatMap_append]
    by_cases one : c < 0x80
    · have spelled : encodeUtf8 c = [UInt8.ofNat c] := by rw [encodeUtf8,if_pos one]
      have value : (UInt8.ofNat c).toNat = c := toNat_ofNat_of_lt (by omega)
      rw [spelled,List.flatMap_singleton,List.flatMap_singleton]
      cases plain : safeChars.contains (UInt8.ofNat c) with
      | true =>
        rw [if_pos rfl,Bool.not_true,Bool.and_false,if_neg Bool.false_ne_true]
        exact .plain (safe _ plain).1 rest
      | false =>
        rw [if_neg Bool.false_ne_true,Bool.not_false,Bool.and_true]
        have escapes := escapeOf_escapes (UInt8.ofNat c)
        split
        · next kept => exact .kept (by rwa [value]) kept escapes rest
        · next free =>
          have escapes : Escapes (escapeOf (UInt8.ofNat c)) ((encodeUtf8 c).map UInt8.toNat) := by
            rwa [spelled,List.map_singleton]
          exact spelled ▸ .point scalar (fun both => free both.2) escapes rest
    · have high := wide_bytes scalar (Nat.le_of_not_lt one)
      have outside : ∀ b ∈ encodeUtf8 c,safeChars.contains b = false := by
        intro b member
        have large := high b member
        rw [Bool.eq_false_iff]
        exact fun plain => absurd (safe b plain).2 (Nat.not_lt_of_le large)
      have free : ∀ b ∈ encodeUtf8 c,(reserved.any (·.contains b) && !safeChars.contains b) = false := by
        intro b member
        have large := high b member
        rw [Bool.and_eq_false_iff,Bool.eq_false_iff]
        exact .inl fun kept => absurd (ascii b kept) (Nat.not_lt_of_le large)
      have same := keptBytes_free free
      rw [keptBytes] at same
      rw [same]
      exact .point scalar (fun both => one both.1) (percentEncode_escapes outside) rest

theorem safe_ascii : ∀ b ∈ uriUnescaped ++ uriReserved,b ≠ 0x25 ∧ b.toNat < 0x80 := by
  have all : (uriUnescaped ++ uriReserved).all fun b => decide (b ≠ 0x25 ∧ b.toNat < 0x80) := by decide
  exact fun b member => of_decide_eq_true (List.all_eq_true.mp all b member)

theorem reserved_escaped : ∀ b ∈ uriReserved,uriUnescaped.contains b = false := by
  have all : uriReserved.all fun b => !uriUnescaped.contains b := by decide
  exact fun b member => (Bool.not_eq_true' _).mp (List.all_eq_true.mp all b member)

theorem round_trip (scalars : ∀ c ∈ points,isScalar c = true) (safe : ∀ b ∈ safeChars,b ≠ 0x25 ∧ b.toNat < 0x80)
    (ascii : ∀ b,reserved.any (·.contains b) = true → b.toNat < 0x80) :
    percentDecode (percentEncode (wtf8 points) safeChars) reserved = some (keptBytes reserved safeChars (wtf8 points)) :=
  percentDecodeFrom_complete (encoded_decodes scalars (fun b plain => safe b (List.contains_iff_mem.mp plain)) ascii) (Nat.le_refl _)

/-- Decoding a text succeeds exactly when its escapes spell code points, one after the other, and gives their bytes. A text
without lone surrogates comes back from each encoder through each decoder, but that `decodeURI` leaves the reserved
characters as `encodeURIComponent` has escaped them. -/
theorem uri_decodes : (∀ bytes out,jsDecodeUriComponent bytes = some out ↔ Decodes none bytes out) ∧
    (∀ bytes out,jsDecodeUri bytes = some out ↔ Decodes (some uriReserved) bytes out) ∧
    ∀ points,(∀ c ∈ points,isScalar c = true) →
      (jsEncodeUri false (wtf8 points)).bind jsDecodeUri = some (wtf8 points) ∧
      (jsEncodeUri false (wtf8 points)).bind jsDecodeUriComponent = some (wtf8 points) ∧
      (jsEncodeUriComponent false (wtf8 points)).bind jsDecodeUriComponent = some (wtf8 points) ∧
      (jsEncodeUriComponent false (wtf8 points)).bind jsDecodeUri =
        some ((wtf8 points).flatMap fun b => if uriReserved.contains b then escapeOf b else [b]) := by
  have decoded : ∀ reserved bytes out,percentDecode bytes reserved = some out ↔ Decodes reserved bytes out := fun reserved bytes out =>
    ⟨percentDecodeFrom_sound,fun decodes => percentDecodeFrom_complete decodes (Nat.le_refl _)⟩
  refine ⟨decoded none,decoded (some uriReserved),fun points scalars => ?_⟩
  have unescaped : ∀ b ∈ uriUnescaped,b ≠ 0x25 ∧ b.toNat < 0x80 := fun b member => safe_ascii b (List.mem_append_left _ member)
  have nothing : ∀ b,(none : Option (List UInt8)).any (·.contains b) = true → b.toNat < 0x80 := fun b none => by cases none
  have reserved : ∀ b,(some uriReserved).any (·.contains b) = true → b.toNat < 0x80 := fun b member =>
    (safe_ascii b (List.mem_append_right _ (List.contains_iff_mem.mp member))).2
  refine ⟨?_,?_,?_,?_⟩
  · refine (round_trip scalars safe_ascii reserved).trans (congrArg some (keptBytes_free fun b _ => ?_))
    rw [Option.any_some,List.contains_append]
    cases uriReserved.contains b with
    | false => rfl
    | true => rw [Bool.or_true]; rfl
  · exact (round_trip scalars safe_ascii nothing).trans (congrArg some (keptBytes_free fun b _ => rfl))
  · exact (round_trip scalars unescaped nothing).trans (congrArg some (keptBytes_free fun b _ => rfl))
  · refine (round_trip scalars unescaped reserved).trans (congrArg some ?_)
    have same : (fun b => if (some uriReserved).any (·.contains b) && !uriUnescaped.contains b then escapeOf b else [b]) =
        fun b => if uriReserved.contains b then escapeOf b else [b] := by
      funext b
      rw [Option.any_some]
      cases shape : uriReserved.contains b with
      | false => rfl
      | true => rw [reserved_escaped b (List.contains_iff_mem.mp shape)]; rfl
    rw [keptBytes,same]

end Encoding

end Perry.Runtime.Uri
