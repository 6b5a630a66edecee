import Perry.Words.Regroup

/-! The base64 codecs of `Buffer`: a decoder that passes over what is not in an alphabet, with a path for clean
texts, and the encoders. -/
namespace Perry.Runtime.Base64

open Perry.Words

/-- The value of a character: two ranges of letters, the digits, and the characters for 62 and 63. -/
def alphabetValue (plus slash : List UInt8) (missing : Nat) (b : UInt8) : Nat :=
  if 65 ≤ b ∧ b ≤ 90 then b.toNat - 65
  else if 97 ≤ b ∧ b ≤ 122 then b.toNat - 97 + 26
  else if 48 ≤ b ∧ b ≤ 57 then b.toNat - 48 + 52
  else if b ∈ plus then 62
  else if b ∈ slash then 63
  else missing

def alphabet (plus slash : UInt8) (n : Nat) : UInt8 :=
  if n < 26 then UInt8.ofNat (65 + n)
  else if n < 52 then UInt8.ofNat (97 + (n - 26))
  else if n < 62 then UInt8.ofNat (48 + (n - 52))
  else if n = 62 then plus
  else slash

def base64DecodeTable : UInt8 → Nat := alphabetValue [0x2b,0x2d] [0x2f,0x5f] 64

def base64EncodeTable : Nat → UInt8 := alphabet 0x2b 0x2f

def base64urlEncodeTable : Nat → UInt8 := alphabet 0x2d 0x5f

/-- The loop over chunks of four, and where it leaves. -/
def fastPath : List UInt8 → List UInt8 × List UInt8
  | b0 :: b1 :: b2 :: b3 :: rest =>
    let v0 := base64DecodeTable b0
    let v1 := base64DecodeTable b1
    let v2 := base64DecodeTable b2
    let v3 := base64DecodeTable b3
    if b0 = 0x3d ∨ b1 = 0x3d ∨ b2 = 0x3d ∨ b3 = 0x3d then ([],b0 :: b1 :: b2 :: b3 :: rest)
    else if 64 ≤ v0 ||| v1 ||| v2 ||| v3 then ([],b0 :: b1 :: b2 :: b3 :: rest)
    else
      let chunk := v0 <<< 18 ||| v1 <<< 12 ||| v2 <<< 6 ||| v3
      ([UInt8.ofNat (chunk >>> 16),UInt8.ofNat (chunk >>> 8),UInt8.ofNat chunk] ++ (fastPath rest).1,(fastPath rest).2)
  | rest => ([],rest)

/-- The loop over single bytes. -/
def slowPath (accum bits : Nat) (written : List UInt8) : List UInt8 → List UInt8
  | [] => written
  | byte :: rest =>
    if byte = 0x3d then written
    else
      let v := base64DecodeTable byte
      if v = 64 then slowPath accum bits written rest
      else
        let accum := accum <<< 6 ||| v
        let bits := bits + 6
        if 8 ≤ bits then
          slowPath (accum &&& (1 <<< (bits - 8) - 1)) (bits - 8) (written ++ [UInt8.ofNat (accum >>> (bits - 8))]) rest
        else slowPath accum bits written rest

def base64DecodeIntoBuffer (input : List UInt8) : List UInt8 := slowPath 0 0 (fastPath input).1 (fastPath input).2

/-- The loops of the encoders, over groups of three. -/
def encodeWith (table : Nat → UInt8) (padding : Bool) : List UInt8 → List UInt8
  | a :: b :: c :: rest =>
    let n := a.toNat <<< 16 ||| b.toNat <<< 8 ||| c.toNat
    [table (n >>> 18),table (n >>> 12 &&& 0x3f),table (n >>> 6 &&& 0x3f),table (n &&& 0x3f)] ++ encodeWith table padding rest
  | [a,b] =>
    let n := a.toNat <<< 16 ||| b.toNat <<< 8
    [table (n >>> 18),table (n >>> 12 &&& 0x3f),table (n >>> 6 &&& 0x3f)] ++ if padding then [0x3d] else []
  | [a] =>
    let n := a.toNat <<< 16
    [table (n >>> 18),table (n >>> 12 &&& 0x3f)] ++ if padding then [0x3d,0x3d] else []
  | [] => []

def base64EncodeIntoString : List UInt8 → List UInt8 := encodeWith base64EncodeTable true

def base64urlEncodeIntoString : List UInt8 → List UInt8 := encodeWith base64urlEncodeTable false

/-- What a text says: the values of the characters in front of the first `=`. -/
def sextets (text : List UInt8) : List Nat := ((text.takeWhile (· ≠ 0x3d)).map base64DecodeTable).filter (· < 64)

section Arithmetic

variable {a b c d : Nat}

theorem shift_or {k : Nat} (fits : b < 2 ^ k) : a <<< k ||| b = a * 2 ^ k + b := by
  rw [← Nat.shiftLeft_add_eq_or_of_lt fits,Nat.shiftLeft_eq]

theorem chunk_eq (b_lt : b < 64) (c_lt : c < 64) (d_lt : d < 64) :
    a <<< 18 ||| b <<< 12 ||| c <<< 6 ||| d = ((a * 64 + b) * 64 + c) * 64 + d := by
  have join : ∀ {x y : Nat},y < 2 ^ 6 → x * 64 + y = x <<< 6 ||| y := fun fits => (shift_or fits).symm
  have first : a <<< 18 ||| b <<< 12 = (a * 64 + b) <<< 12 := by
    rw [join b_lt,Nat.shiftLeft_or_distrib,← Nat.shiftLeft_add]
  have second : (a * 64 + b) <<< 12 ||| c <<< 6 = ((a * 64 + b) * 64 + c) <<< 6 := by
    rw [join c_lt,Nat.shiftLeft_or_distrib,← Nat.shiftLeft_add]
  rw [first,second,join d_lt]

theorem triple_eq (b_lt : b < 256) (c_lt : c < 256) : a <<< 16 ||| b <<< 8 ||| c = (a * 256 + b) * 256 + c := by
  have join : ∀ {x y : Nat},y < 2 ^ 8 → x * 256 + y = x <<< 8 ||| y := fun fits => (shift_or fits).symm
  have first : a <<< 16 ||| b <<< 8 = (a * 256 + b) <<< 8 := by
    rw [join b_lt,Nat.shiftLeft_or_distrib,← Nat.shiftLeft_add]
  rw [first,join c_lt]

theorem low_sextet (n : Nat) : n &&& 0x3f = n % 64 := Nat.and_two_pow_sub_one_eq_mod n 6

end Arithmetic

theorem alphabetValue_lt {plus slash : List UInt8} {missing : Nat} (b : UInt8) :
    alphabetValue plus slash missing b < 64 ∨ alphabetValue plus slash missing b = missing := by
  simp only [alphabetValue,UInt8.le_iff_toNat_le]
  split_ifs with upper lower digit
  · exact .inl (by have : b.toNat ≤ 90 := upper.2; omega)
  · exact .inl (by have : b.toNat ≤ 122 := lower.2; omega)
  · exact .inl (by have : b.toNat ≤ 57 := digit.2; omega)
  · exact .inl (by omega)
  · exact .inl (by omega)
  · exact .inr rfl

theorem sextets_nil : sextets [] = [] := rfl

theorem sextets_pad (rest : List UInt8) : sextets (0x3d :: rest) = [] := by
  rw [sextets,List.takeWhile_cons_of_neg (by simp)]
  rfl

theorem sextets_valid {b : UInt8} (rest : List UInt8) (other : b ≠ 0x3d) (valid : base64DecodeTable b < 64) :
    sextets (b :: rest) = base64DecodeTable b :: sextets rest := by
  rw [sextets,List.takeWhile_cons_of_pos (by simpa using other),List.map_cons,List.filter_cons_of_pos (by simpa using valid)]
  rfl

theorem sextets_skip {b : UInt8} (rest : List UInt8) (other : b ≠ 0x3d) (missing : base64DecodeTable b = 64) :
    sextets (b :: rest) = sextets rest := by
  rw [sextets,List.takeWhile_cons_of_pos (by simpa using other),List.map_cons,List.filter_cons_of_neg (by simp [missing])]
  rfl

theorem sextets_length_le (text : List UInt8) : (sextets text).length ≤ text.length := by
  refine (List.length_filter_le _ _).trans ?_
  rw [List.length_map]
  exact (List.takeWhile_sublist _).length_le

theorem toNat_ofNat_lt {n : Nat} (fits : n < 256) : (UInt8.ofNat n).toNat = n := UInt8.toNat_ofNat_of_lt' fits

/-- The single bytes go on with a regrouping. -/
theorem slowPath_regroups {input written : List UInt8} {ds : List Nat} {accum bits : Nat}
    (regrouping : Regrouping 6 8 ds (written.map UInt8.toNat) accum bits) (few : bits < 8) :
    Regroups 6 8 (ds ++ sextets input) ((slowPath accum bits written input).map UInt8.toNat) := by
  induction input generalizing ds accum bits written with
  | nil =>
    rw [sextets_nil,List.append_nil]
    exact ⟨accum,bits,regrouping,few⟩
  | cons byte rest ih =>
    rw [slowPath]
    split
    · next pad =>
      rw [pad,sextets_pad,List.append_nil]
      exact ⟨accum,bits,regrouping,few⟩
    next other =>
    dsimp only
    split
    · next missing =>
      rw [sextets_skip rest other missing]
      exact ih regrouping few
    next present =>
    have valid : base64DecodeTable byte < 64 := (alphabetValue_lt byte).resolve_right present
    have pushed := regrouping.push (show base64DecodeTable byte < 2 ^ 6 from valid)
    have accumulated : accum <<< 6 ||| base64DecodeTable byte = accum * 2 ^ 6 + base64DecodeTable byte := shift_or valid
    rw [sextets_valid rest other valid,List.append_cons,accumulated]
    split
    · next enough =>
      have emitted := pushed.emit enough
      have mask : (accum * 2 ^ 6 + base64DecodeTable byte) &&& (1 <<< (bits + 6 - 8) - 1) =
          (accum * 2 ^ 6 + base64DecodeTable byte) % 2 ^ (bits + 6 - 8) := by
        rw [Nat.one_shiftLeft,Nat.and_two_pow_sub_one_eq_mod]
      have byte_lt := emitted.digits _ (List.mem_append_right _ (List.mem_singleton_self _))
      rw [mask,Nat.shiftRight_eq_div_pow]
      refine ih ?_ (by omega)
      rw [List.map_append,List.map_singleton,toNat_ofNat_lt byte_lt]
      exact emitted
    · next short => exact ih pushed (by omega)

/-- The chunks leave nothing over. -/
theorem fastPath_regroups (input : List UInt8) : ∃ front,sextets input = front ++ sextets (fastPath input).2 ∧
    Regrouping 6 8 front ((fastPath input).1.map UInt8.toNat) 0 0 := by
  fun_induction fastPath input with
  | case1 b0 b1 b2 b3 rest pad => exact ⟨[],rfl,.nil⟩
  | case2 b0 b1 b2 b3 rest v0 v1 v2 v3 pad missing => exact ⟨[],rfl,.nil⟩
  | case3 b0 b1 b2 b3 rest v0 v1 v2 v3 pad valid chunk ih =>
    obtain ⟨front,split,regrouping⟩ := ih
    simp only [not_or] at pad
    obtain ⟨p0,p1,p2,p3⟩ := pad
    have below := Nat.lt_of_not_le valid
    have l3 : v3 < 64 := Nat.right_le_or.trans_lt below
    have below := Nat.left_le_or.trans_lt below
    have l2 : v2 < 64 := Nat.right_le_or.trans_lt below
    have below := Nat.left_le_or.trans_lt below
    have l1 : v1 < 64 := Nat.right_le_or.trans_lt below
    have l0 : v0 < 64 := Nat.left_le_or.trans_lt below
    have value : chunk = ((v0 * 64 + v1) * 64 + v2) * 64 + v3 := chunk_eq l1 l2 l3
    have bytes : [UInt8.ofNat (chunk >>> 16),UInt8.ofNat (chunk >>> 8),UInt8.ofNat chunk].map UInt8.toNat =
        [chunk / 65536,chunk / 256 % 256,chunk % 256] := by
      simp only [List.map_cons,List.map_nil,UInt8.toNat_ofNat',Nat.shiftRight_eq_div_pow]
      norm_num
      omega
    refine ⟨[v0,v1,v2,v3] ++ front,?_,?_⟩
    · rw [sextets_valid _ p0 l0,sextets_valid _ p1 l1,sextets_valid _ p2 l2,sextets_valid _ p3 l3,split]
      rfl
    · rw [List.map_append,bytes]
      refine regrouping.group ⟨?_,rfl,Nat.one_pos,?_⟩
      · simp only [List.forall_mem_cons]
        refine ⟨?_,?_,?_,List.forall_mem_nil _⟩ <;> omega
      · simp only [bigEndian_cons,bigEndian_nil,List.length_cons,List.length_nil]
        omega
  | case4 rest short => exact ⟨[],rfl,.nil⟩

theorem base64Decode_regroups (input : List UInt8) :
    Regroups 6 8 (sextets input) ((base64DecodeIntoBuffer input).map UInt8.toNat) := by
  obtain ⟨front,split,regrouping⟩ := fastPath_regroups input
  rw [split,base64DecodeIntoBuffer]
  exact slowPath_regroups regrouping (by omega)

section Encoding

variable {table : Nat → UInt8} {padding : Bool} {bytes : List UInt8}

theorem encodeTable_valid : ∀ n < 64,base64DecodeTable (base64EncodeTable n) = n ∧ base64EncodeTable n ≠ 0x3d := by
  decide

theorem urlEncodeTable_valid : ∀ n < 64,base64DecodeTable (base64urlEncodeTable n) = n ∧ base64urlEncodeTable n ≠ 0x3d := by
  decide

variable (valid : ∀ n < 64,base64DecodeTable (table n) = n ∧ table n ≠ 0x3d)

include valid

theorem sextets_table {n : Nat} (fits : n < 64) (rest : List UInt8) : sextets (table n :: rest) = n :: sextets rest := by
  obtain ⟨value,other⟩ := valid n fits
  rw [sextets_valid rest other (by rwa [value]),value]

/-- The text of an encoder says its bytes. -/
theorem encodeWith_regroups : Regroups 6 8 (sextets (encodeWith table padding bytes)) (bytes.map UInt8.toNat) := by
  have padded : ∀ pads : List UInt8,pads.head? = some 0x3d → sextets (if padding then pads else []) = [] := by
    intro pads first
    obtain ⟨rest,rfl⟩ := List.head?_eq_some_iff.mp first
    split
    · exact sextets_pad rest
    · rfl
  have byte_lt : ∀ b : UInt8,b.toNat < 256 := fun b => b.toNat_lt
  fun_induction encodeWith table padding bytes with
  | case1 a b c rest n ih =>
    have value : n = (a.toNat * 256 + b.toNat) * 256 + c.toNat := triple_eq (byte_lt b) (byte_lt c)
    have := byte_lt a
    have := byte_lt b
    have := byte_lt c
    simp only [low_sextet,Nat.shiftRight_eq_div_pow]
    rw [List.cons_append,List.cons_append,List.cons_append,List.cons_append,List.nil_append,sextets_table valid (by omega),
      sextets_table valid (by omega),sextets_table valid (by omega),sextets_table valid (by omega)]
    have whole : Regrouping 6 8 [n / 2 ^ 18,n / 2 ^ 12 % 64,n / 2 ^ 6 % 64,n % 64] [a.toNat,b.toNat,c.toNat] 0 0 := by
      refine ⟨?_,rfl,Nat.one_pos,?_⟩
      · simp only [List.forall_mem_cons]
        exact ⟨byte_lt a,byte_lt b,byte_lt c,List.forall_mem_nil _⟩
      · simp only [bigEndian_cons,bigEndian_nil,List.length_cons,List.length_nil]
        omega
    exact ih.group whole
  | case2 a b n =>
    have value : n = (a.toNat * 256 + b.toNat) * 256 := by
      have joined := triple_eq (a := a.toNat) (byte_lt b) (show 0 < 256 by omega)
      rwa [Nat.or_zero,Nat.add_zero] at joined
    have := byte_lt a
    have := byte_lt b
    simp only [low_sextet,Nat.shiftRight_eq_div_pow]
    rw [List.cons_append,List.cons_append,List.cons_append,List.nil_append,sextets_table valid (by omega),sextets_table valid (by omega),
      sextets_table valid (by omega),padded _ rfl]
    refine ⟨0,2,⟨?_,rfl,by norm_num,?_⟩,by omega⟩
    · simp only [List.map_cons,List.map_nil,List.forall_mem_cons]
      exact ⟨byte_lt a,byte_lt b,List.forall_mem_nil _⟩
    · simp only [List.map_cons,List.map_nil,bigEndian_cons,bigEndian_nil,List.length_cons,List.length_nil]
      omega
  | case3 a n =>
    have value : n = a.toNat * 65536 := Nat.shiftLeft_eq ..
    have := byte_lt a
    simp only [low_sextet,Nat.shiftRight_eq_div_pow]
    rw [List.cons_append,List.cons_append,List.nil_append,sextets_table valid (by omega),sextets_table valid (by omega),padded _ rfl]
    refine ⟨0,4,⟨?_,rfl,by norm_num,?_⟩,by omega⟩
    · simp only [List.map_cons,List.map_nil,List.forall_mem_cons]
      exact ⟨byte_lt a,List.forall_mem_nil _⟩
    · simp only [List.map_cons,List.map_nil,bigEndian_cons,bigEndian_nil,List.length_cons,List.length_nil]
      omega
  | case4 => exact ⟨0,0,.nil,by omega⟩

end Encoding

/-- What says the same as bytes do is decoded to them. -/
theorem decode_of_regroups {text bytes : List UInt8} (read : Regroups 6 8 (sextets text) (bytes.map UInt8.toNat)) :
    base64DecodeIntoBuffer text = bytes :=
  List.map_injective_iff.mpr (fun _ _ same => UInt8.toNat_inj.mp same) ((base64Decode_regroups text).unique read)

/-- Decoding reads the sextets in front of the first `=` as one row of bits, in which it passes over all other characters,
and fits the buffer; and it takes the texts of both encoders back, whatever stands between their characters. -/
theorem base64_decodes : (∀ text,Regroups 6 8 (sextets text) ((base64DecodeIntoBuffer text).map UInt8.toNat) ∧
      (base64DecodeIntoBuffer text).length ≤ text.length * 3 / 4 + 3) ∧
    ∀ bytes text,sextets text = sextets (base64EncodeIntoString bytes) ∨ sextets text = sextets (base64urlEncodeIntoString bytes) →
      base64DecodeIntoBuffer text = bytes := by
  refine ⟨fun text => ⟨base64Decode_regroups text,?_⟩,?_⟩
  · have lengths := (base64Decode_regroups text).length_le
    have fewer := sextets_length_le text
    rw [List.length_map] at lengths
    omega
  · rintro bytes text (same | same)
    · exact decode_of_regroups (same ▸ encodeWith_regroups encodeTable_valid)
    · exact decode_of_regroups (same ▸ encodeWith_regroups urlEncodeTable_valid)

end Perry.Runtime.Base64
