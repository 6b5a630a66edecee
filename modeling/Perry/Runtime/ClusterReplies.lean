import Perry.Runtime.ClusterFrames

/-! A reply is recognised in its line and in its payload, with the request key and the
port that went in. -/
namespace Perry.Runtime.Cluster

open Perry.Unicode

section text

variable {c : Nat} {chars : Chars}

theorem encodeUtf8_byte {b : UInt8} (inside : b ∈ encodeUtf8 c) : b = .ofNat c ∧ c < 0x80 ∨ 0x80 ≤ b.toNat ∧ b.toNat < 0xF8 := by
  unfold encodeUtf8 at inside
  split at inside
  · next small => exact .inl ⟨List.mem_singleton.mp inside,small⟩
  all_goals
    right
    repeat' split at inside
    all_goals
      simp only [List.mem_cons,List.not_mem_nil,or_false] at inside
      rcases inside with rfl | rfl | rfl | rfl <;> rw [toNat_ofNat_of_lt (by omega)] <;> omega

theorem newline_mem_encode : newline ∈ encode chars ↔ 0x0A ∈ chars := by
  rw [encode,List.mem_flatMap]
  constructor
  · rintro ⟨c,inside,byte⟩
    obtain ⟨same,small⟩ | ⟨large,_⟩ := encodeUtf8_byte byte
    · have code := congrArg UInt8.toNat same
      rw [toNat_ofNat_of_lt (by omega)] at code
      rwa [← code] at inside
    · exact absurd large (by decide)
  · exact fun inside => ⟨_,inside,by decide⟩

theorem encodeUtf8_ne_nil (c : Nat) : encodeUtf8 c ≠ [] := by
  unfold encodeUtf8
  repeat' split
  all_goals exact List.cons_ne_nil _ _

theorem encode_ne_nil (nonempty : chars ≠ []) : encode chars ≠ [] := by
  obtain ⟨c,cs,rfl⟩ := List.exists_cons_of_ne_nil nonempty
  rw [encode,List.flatMap_cons]
  exact List.append_ne_nil_of_left_ne_nil (encodeUtf8_ne_nil c) _

theorem tag_not_mem_encode : fdFrameTag ∉ encode chars := by
  intro inside
  obtain ⟨c,_,byte⟩ := List.mem_flatMap.mp inside
  obtain ⟨same,small⟩ | ⟨_,bound⟩ := encodeUtf8_byte byte
  · have code := congrArg UInt8.toNat same
    rw [toNat_ofNat_of_lt (by omega)] at code
    change 0xFE = c at code
    omega
  · exact absurd bound (by decide)

theorem parts_encode (scalars : ∀ c ∈ chars, isScalar c = true) : parts (encode chars) = chars.map some :=
  parts_encoded scalars

theorem fromUtf8Lossy_encode (scalars : ∀ c ∈ chars, isScalar c = true) : fromUtf8Lossy (encode chars) = chars := by
  rw [fromUtf8Lossy,parts_encode scalars,List.map_map]
  exact List.map_id _

theorem fromUtf8_encode (scalars : ∀ c ∈ chars, isScalar c = true) : fromUtf8 (encode chars) = some chars := by
  rw [fromUtf8,fromUtf8Lossy_encode scalars,parts_encode scalars,if_pos]
  rw [List.all_map,List.all_eq_true]
  exact fun c _ => rfl

end text

/-! The line. -/

section line

variable {key rest needle : Chars} {port : Option (Fin (2 ^ 16))}

/-- A character with the backslash it needs. -/
def escapeOne (c : Nat) : Chars := if c = backslash ∨ c = quoteMark then [backslash,c] else [c]

theorem escape_eq (key : Chars) : escape key = key.flatMap escapeOne := by
  rw [escape,List.flatMap_assoc]
  congr 1
  funext c
  rw [escapeOne]
  by_cases slash : c = backslash
  · subst slash
    rfl
  · rw [if_neg slash,List.flatMap_singleton]
    by_cases mark : c = quoteMark
    · rw [if_pos mark,if_pos (.inr mark),mark]
    · rw [if_neg mark,if_neg (not_or.mpr ⟨slash,mark⟩)]

theorem escape_cons (c : Nat) (key : Chars) : escape (c :: key) = escapeOne c ++ escape key := by
  rw [escape_eq,escape_eq,List.flatMap_cons]

theorem unescaped_mark (rest : Chars) : unescaped (quoteMark :: rest) = some [] := by
  cases rest <;> rw [unescaped,if_pos rfl]

theorem unescaped_slash (c : Nat) (rest : Chars) : unescaped (backslash :: c :: rest) = (unescaped rest).map (c :: ·) := by
  rw [unescaped,if_neg (by decide),if_pos rfl]

theorem unescaped_plain {c : Nat} (plain : ¬(c = backslash ∨ c = quoteMark)) (rest : Chars) :
    unescaped (c :: rest) = (unescaped rest).map (c :: ·) := by
  rw [not_or] at plain
  cases rest <;> simp only [unescaped,if_neg plain.2,if_neg plain.1]

theorem unescaped_escape (key rest : Chars) : unescaped (escape key ++ quoteMark :: rest) = some key := by
  induction key with
  | nil => exact unescaped_mark rest
  | cons c key ih =>
    rw [escape_cons,escapeOne]
    split
    · change unescaped (backslash :: c :: (escape key ++ quoteMark :: rest)) = _
      rw [unescaped_slash,ih,Option.map_some]
    · next plain =>
      change unescaped (c :: (escape key ++ quoteMark :: rest)) = _
      rw [unescaped_plain plain,ih,Option.map_some]

theorem afterFirst_skip {c : Nat} (other : ¬needle <+: c :: rest) : afterFirst needle (c :: rest) = afterFirst needle rest := by
  rw [afterFirst,if_neg fun same => other (List.isPrefixOf_iff_prefix.mp same)]

theorem afterFirst_isSome (needle s : Chars) : (afterFirst needle s).isSome = true ↔ needle <:+: s := by
  induction s with
  | nil =>
    rw [afterFirst,List.infix_nil]
    split <;> simp_all
  | cons c s ih =>
    rw [List.infix_cons_iff,← ih]
    by_cases here : needle <+: c :: s
    · rw [afterFirst,if_pos (List.isPrefixOf_iff_prefix.mpr here)]
      exact ⟨fun _ => .inl here,fun _ => rfl⟩
    · rw [afterFirst_skip here]
      exact ⟨.inr,fun found => found.resolve_left here⟩

/-- A word and a closing mark are nowhere in an escaped text: there each mark has a
backslash before it. -/
theorem not_word {word tail : Chars} (plain : ∀ c ∈ word, c ≠ quoteMark ∧ c ≠ backslash)
    (differs : ¬tail <+: rest) : ¬(word ++ quoteMark :: tail) <+: escape key ++ quoteMark :: rest := by
  induction word generalizing key with
  | nil =>
    intro same
    cases key with
    | nil => exact differs (List.cons_prefix_cons.mp same).2
    | cons c key =>
      rw [escape_cons,escapeOne] at same
      split at same
      · exact absurd (List.cons_prefix_cons.mp same).1 (by decide)
      · next other => exact other (.inr (List.cons_prefix_cons.mp same).1.symm)
  | cons w word ih =>
    obtain ⟨first,others⟩ := List.forall_mem_cons.mp plain
    intro same
    cases key with
    | nil => exact first.1 (List.cons_prefix_cons.mp same).1
    | cons c key =>
      rw [escape_cons,escapeOne] at same
      split at same
      · exact first.2 (List.cons_prefix_cons.mp same).1
      · exact ih others (List.cons_prefix_cons.mp same).2

/-- A quoted word is not found in an escaped text, nor where the text ends. -/
theorem afterFirst_escape {word tail : Chars} (plain : ∀ c ∈ word, c ≠ quoteMark ∧ c ≠ backslash) (differs : ¬tail <+: rest)
    (key : Chars) : afterFirst (quoteMark :: (word ++ quoteMark :: tail)) (escape key ++ quoteMark :: rest) =
      afterFirst (quoteMark :: (word ++ quoteMark :: tail)) (quoteMark :: rest) := by
  induction key with
  | nil => rfl
  | cons c key ih =>
    rw [escape_cons,escapeOne]
    split
    · change afterFirst _ (backslash :: c :: (escape key ++ quoteMark :: rest)) = _
      have inside : ¬(quoteMark :: (word ++ quoteMark :: tail)) <+: c :: (escape key ++ quoteMark :: rest) := fun same =>
        not_word plain differs (List.cons_prefix_cons.mp same).2
      have slash : ¬(quoteMark :: (word ++ quoteMark :: tail)) <+: backslash :: c :: (escape key ++ quoteMark :: rest) :=
        fun same => absurd (List.cons_prefix_cons.mp same).1 (by decide)
      rw [afterFirst_skip slash,afterFirst_skip inside,ih]
    · next other =>
      change afterFirst _ (c :: (escape key ++ quoteMark :: rest)) = _
      rw [afterFirst_skip fun same => other (.inr (List.cons_prefix_cons.mp same).1.symm),ih]

theorem showNat_digits (n : Nat) : showNat n ≠ [] ∧ (showNat n).all isDigit = true ∧
    (showNat n).foldl (fun n c => n * 10 + (c - 0x30)) 0 = n := by
  rw [showNat]
  split
  · next zero => exact ⟨List.cons_ne_nil _ _,rfl,zero.symm⟩
  · next positive =>
    refine ⟨fun empty => positive (Nat.digits_eq_nil_iff_eq_zero.mp (List.reverse_eq_nil_iff.mp (List.map_eq_nil_iff.mp empty))),
      ?_,?_⟩
    · rw [List.all_map,List.all_reverse,List.all_eq_true]
      intro d inside
      have small := Nat.digits_lt_base (by decide) inside
      simp only [Function.comp_apply,isDigit,decide_eq_true_eq]
      omega
    · rw [List.foldl_map,List.foldl_reverse]
      simp only [Nat.add_sub_cancel_left]
      conv_rhs => rw [← Nat.ofDigits_digits 10 n,Nat.ofDigits_eq_foldr]
      congr 1
      funext d n
      rw [Nat.cast_id]
      ring

theorem digitsValue_showNat (n : Nat) : digitsValue (showNat n) = some n := by
  obtain ⟨nonempty,digits,value⟩ := showNat_digits n
  rw [digitsValue,if_pos ⟨nonempty,digits⟩,value]

theorem showNat_head (n : Nat) : (showNat n).head? ≠ some 0x2D := by
  obtain ⟨nonempty,digits,_⟩ := showNat_digits n
  obtain ⟨c,cs,shape⟩ := List.exists_cons_of_ne_nil nonempty
  rw [shape,List.all_cons,Bool.and_eq_true] at digits
  rw [shape,List.head?_cons,Ne,Option.some.injEq]
  rintro rfl
  exact absurd digits.1 (by decide)

theorem parseI32_showPort (port : Option (Fin (2 ^ 16))) : parseI32 (showPort port) = some (portValue port) := by
  cases port with
  | none => rfl
  | some p =>
    change parseI32 (showNat p.val) = some (p.val : Int)
    have small := p.isLt
    rw [parseI32,if_neg (showNat_head _),digitsValue_showNat,Option.bind_some,if_pos (by omega)]

theorem showPort_span (port : Option (Fin (2 ^ 16))) :
    (showPort port ++ codes "\x7d").takeWhile (fun c => c = 0x2D ∨ isDigit c) = showPort port := by
  have numeral : ∀ c ∈ showPort port, decide (c = 0x2D ∨ isDigit c = true) = true := by
    cases port with
    | none => decide
    | some p => exact fun c inside => decide_eq_true (.inr (List.all_eq_true.mp (showNat_digits p.val).2.1 c inside))
  rw [List.takeWhile_append_of_pos numeral]
  exact List.append_nil _

/-- What is in the line of a reply beside its key. -/
theorem mem_replyJson {c : Nat} (key : Chars) (port : Option (Fin (2 ^ 16))) :
    (c ∈ key → c ∈ replyJson key port) ∧ (c ∈ replyJson key port → c ∈ key ∨ c < 0x80 ∧ c ≠ 0x0A) := by
  have one (d : Nat) : d ∈ escapeOne d ∧ ∀ c ∈ escapeOne d, c = backslash ∨ c = d := by
    rw [escapeOne]
    split <;> simp
  have front : ∀ c ∈ codes "\x7b\"cmd\":\"NODE_CLUSTER\",\"act\":\"queryServerReply\",\"reqKey\":\"", c < 0x80 ∧ c ≠ 0x0A := by
    decide
  have middle : ∀ c ∈ codes "\",\"port\":", c < 0x80 ∧ c ≠ 0x0A := by decide
  have numeral : ∀ c ∈ showPort port, c < 0x80 ∧ c ≠ 0x0A := by
    cases port with
    | none => decide
    | some p =>
      intro c inside
      have digit := List.all_eq_true.mp (showNat_digits p.val).2.1 c inside
      rw [isDigit,decide_eq_true_eq] at digit
      omega
  have back : ∀ c ∈ codes "\x7d", c < 0x80 ∧ c ≠ 0x0A := by decide
  simp only [replyJson,escape_eq,List.mem_append,List.mem_flatMap]
  constructor
  · exact fun inside => .inl (.inl (.inl (.inr ⟨c,inside,(one c).1⟩)))
  · rintro ((((inside | ⟨d,inside,escaped⟩) | inside) | inside) | inside)
    · exact .inr (front c inside)
    · obtain rfl | rfl := (one d).2 c escaped
      · exact .inr (by decide)
      · exact .inl inside
    · exact .inr (middle c inside)
    · exact .inr (numeral c inside)
    · exact .inr (back c inside)

/-- The line of a reply is taken for this reply. -/
theorem queryReply_replyJson (key : Chars) (port : Option (Fin (2 ^ 16))) :
    queryReply (replyJson key port) = some (key,portValue port) := by
  have shape : replyJson key port = codes "\x7b\"cmd\":\"NODE_CLUSTER\",\"act\":\"queryServerReply\",\"reqKey\":\"" ++
      (escape key ++ quoteMark :: (codes ",\"port\":" ++ (showPort port ++ codes "\x7d"))) := by
    simp only [replyJson,List.append_assoc]
    rfl
  have act : (afterFirst actNeedle (replyJson key port)).isSome = true := by
    rw [shape]
    rfl
  have reqKey : jsonStrField (replyJson key port) (codes "reqKey") = some key := by
    rw [shape,jsonStrField]
    exact unescaped_escape key _
  have number : jsonNumField (replyJson key port) (codes "port") = some (portValue port) := by
    have differs : ¬codes ":" <+: codes ",\"port\":" ++ (showPort port ++ codes "\x7d") := fun same =>
      absurd (List.cons_prefix_cons.mp same).1 (by decide)
    have plain : ∀ c ∈ codes "port", c ≠ quoteMark ∧ c ≠ backslash := by decide
    have mark : ¬codes "\"port\":" <+: quoteMark :: (escape key ++ quoteMark :: (codes ",\"port\":" ++
        (showPort port ++ codes "\x7d"))) := fun same => not_word plain differs (List.cons_prefix_cons.mp same).2
    have found : afterFirst (codes "\"port\":") (replyJson key port) = some (showPort port ++ codes "\x7d") := by
      rw [shape]
      refine (afterFirst_skip mark).trans ?_
      exact (afterFirst_escape plain differs key).trans rfl
    exact (congrArg (Option.bind · _) found).trans ((congrArg parseI32 (showPort_span port)).trans (parseI32_showPort port))
  rw [queryReply,if_pos act,reqKey,number]
  rfl

end line

/-! The payload. -/

namespace FlatV8Reader

variable {chars : Chars}

theorem varintFrom_write {fuel value shift : Nat} (fits : value < 2 ^ (7 * (fuel + 1))) (word : value * 2 ^ shift < 2 ^ 64)
    (rest : Bytes) : varintFrom shift (writeVarintIn (fuel + 1) value ++ rest) = some (value * 2 ^ shift,rest) := by
  induction fuel generalizing value shift with
  | zero =>
    have small : value < 0x80 := fits
    have byte := toNat_ofNat_of_lt (n := value % 0x80) (by omega)
    rw [writeVarintIn,if_pos (by omega),List.cons_append,List.nil_append,varintFrom,byte,if_pos (by omega),Nat.mod_eq_of_lt small,
      Nat.mod_eq_of_lt word]
  | succ fuel ih =>
    rw [writeVarintIn]
    split
    · have small : value < 0x80 := by omega
      have byte := toNat_ofNat_of_lt (n := value % 0x80) (by omega)
      rw [List.cons_append,List.nil_append,varintFrom,byte,if_pos (by omega),Nat.mod_eq_of_lt small,Nat.mod_eq_of_lt word]
    · next more =>
      have byte := toNat_ofNat_of_lt (n := value % 0x80 + 0x80) (by omega)
      have low : value % 0x80 * 2 ^ shift < 2 ^ 64 := (Nat.mul_le_mul_right _ (Nat.mod_le _ _)).trans_lt word
      have split : value % 0x80 * 2 ^ shift + value / 0x80 * 2 ^ (shift + 7) = value * 2 ^ shift := by
        conv_rhs => rw [← Nat.mod_add_div value 0x80]
        ring
      have narrow : value / 0x80 < 2 ^ (7 * (fuel + 1)) := by
        rw [show 7 * (fuel + 1 + 1) = 7 + 7 * (fuel + 1) by ring,pow_add] at fits
        exact Nat.div_lt_of_lt_mul fits
      have shallow : shift + 7 < 64 := by
        by_contra deep
        have large : 2 ^ 64 ≤ 2 ^ (shift + 7) := Nat.pow_le_pow_right (by decide) (by omega)
        have more : 1 * 2 ^ (shift + 7) ≤ value / 0x80 * 2 ^ (shift + 7) := Nat.mul_le_mul_right _ (by omega)
        omega
      rw [List.cons_append,varintFrom,byte,if_neg (by omega),if_neg (by omega),ih narrow (by omega),Option.map_some,
        Nat.add_mod_right,Nat.mod_mod,Nat.mod_eq_of_lt low,split]

theorem varint_write {value : Nat} (word : value < 2 ^ 64) (rest : Bytes) :
    varint (writeVarint value ++ rest) = some (value,rest) := by
  have read := @varintFrom_write 9 value 0 (by omega) (by omega) rest
  rwa [Nat.pow_zero,Nat.mul_one] at read

theorem raw_append (bytes rest : Bytes) : raw bytes.length (bytes ++ rest) = some (bytes,rest) := by
  rw [raw,if_pos (by rw [List.length_append]; omega),List.take_left,List.drop_left]

theorem unitsLe_bytes {units : List Nat} (small : ∀ u ∈ units, u < 2 ^ 16) :
    unitsLe (units.flatMap fun u => [.ofNat (u % 256),.ofNat (u / 256)]) = units := by
  induction units with
  | nil => rfl
  | cons u units ih =>
    obtain ⟨first,others⟩ := List.forall_mem_cons.mp small
    rw [List.flatMap_cons,List.cons_append,List.cons_append,List.nil_append,unitsLe,ih others,toNat_ofNat_of_lt (by omega),
      toNat_ofNat_of_lt (by omega),Nat.mod_add_div]

theorem fromUtf16_units (scalars : ∀ c ∈ chars, isScalar c = true) : fromUtf16 (chars.flatMap unitsOf) = some chars := by
  induction chars with
  | nil => rfl
  | cons c chars ih =>
    obtain ⟨first,others⟩ := List.forall_mem_cons.mp scalars
    simp only [isScalar,decide_eq_true_eq] at first
    rw [List.flatMap_cons,unitsOf]
    split
    · next single =>
      have high : isHigh c = false := by simp only [isHigh,decide_eq_false_iff_not]; omega
      have low : isLow c = false := by simp only [isLow,decide_eq_false_iff_not]; omega
      rw [List.cons_append,List.nil_append]
      cases units : chars.flatMap unitsOf with
      | nil =>
        have rest := ih others
        rw [units,fromUtf16,Option.some.injEq] at rest
        rw [fromUtf16,high,low,← rest]
        rfl
      | cons v units' => rw [fromUtf16,high,low,← units,ih others]; rfl
    · next wide =>
      have high : isHigh (0xD800 + (c - 0x10000) / 1024) = true := by simp only [isHigh,decide_eq_true_eq]; omega
      have low : isLow (0xDC00 + (c - 0x10000) % 1024) = true := by simp only [isLow,decide_eq_true_eq]; omega
      have code : 0x10000 + (0xD800 + (c - 0x10000) / 1024 - 0xD800) * 1024 + (0xDC00 + (c - 0x10000) % 1024 - 0xDC00) = c := by
        omega
      rw [List.cons_append,List.cons_append,List.nil_append,fromUtf16,if_pos high,if_pos low,ih others,Option.map_some,code]

theorem string_write (scalars : ∀ c ∈ chars, isScalar c = true) (short : (writeString chars).length < 2 ^ 64) (rest : Bytes) :
    string (writeString chars ++ rest) = some (chars,rest) := by
  rw [writeString] at short ⊢
  split at short
  · next ascii =>
    rw [List.length_cons,List.length_append] at short
    rw [if_pos ascii,List.cons_append,List.append_assoc]
    simp only [string,byte,Option.bind_eq_bind,Option.bind_some,varint_write (show (encode chars).length < 2 ^ 64 by omega),
      raw_append,fromUtf8Lossy_encode scalars]
    rfl
  · next other =>
    rw [List.length_cons,List.length_append] at short
    have units : unitsLe (encodeUtf16 chars) = chars.flatMap unitsOf := by
      refine unitsLe_bytes fun u inside => ?_
      obtain ⟨c,member,unit⟩ := List.mem_flatMap.mp inside
      have scalar := scalars c member
      simp only [isScalar,decide_eq_true_eq] at scalar
      rw [unitsOf] at unit
      split at unit <;> simp only [List.mem_cons,List.not_mem_nil,or_false] at unit <;> omega
    have even : (encodeUtf16 chars).length % 2 = 0 := by
      rw [encodeUtf16,List.length_flatMap]
      simp
    rw [if_neg other,List.cons_append,List.append_assoc]
    simp only [string,byte,Option.bind_eq_bind,Option.bind_some,varint_write (show (encodeUtf16 chars).length < 2 ^ 64 by omega),
      raw_append,units,fromUtf16_units scalars,even]
    rfl

theorem number_write (port : Option (Fin (2 ^ 16))) (rest : Bytes) :
    number (0x49 :: (writeZigzag (portValue port) ++ rest)) = some (portValue port,rest) := by
  cases port with
  | none => rfl
  | some p =>
    have small := p.isLt
    have even : 2 * p.val % 2 = 0 := Nat.mul_mod_right 2 p.val
    have half : ((2 * p.val : Nat) : Int) / 2 = p.val := by omega
    have narrow : wrap (p.val : Int) = p.val := Int.bmod_eq_of_le (by omega) (by omega)
    change number (0x49 :: (writeZigzag (p.val : Int) ++ rest)) = some ((p.val : Int),rest)
    rw [writeZigzag,if_pos (Int.natCast_nonneg _),Int.toNat_natCast]
    simp only [number,byte,Option.bind_eq_bind,Option.bind_some,varint_write (show 2 * p.val < 2 ^ 64 by omega),even,half]
    rw [if_pos trivial,if_pos trivial,narrow]
    rfl

section fields

variable {fuel : Nat} {fields : QueryReplyFields} {rest : Bytes}

theorem head_writeString (chars : Chars) (rest : Bytes) : (writeString chars ++ rest).head? ≠ some 0x7B := by
  have tags : some (0x22 : UInt8) ≠ some 0x7B ∧ some (0x63 : UInt8) ≠ some 0x7B := by decide
  rw [writeString]
  split
  · exact tags.1
  · exact tags.2

/-- A turn of the loop: the key is read, and it says what its value is read as. -/
theorem readFields_key {chars : Chars} {bytes : Bytes} (key : string (writeString chars ++ bytes) = some (chars,bytes)) :
    readFields (fuel + 1) fields (writeString chars ++ bytes) =
      if chars = codes "cmd" then (string bytes).bind fun read => readFields fuel fields read.2
      else if chars = codes "act" then (string bytes).bind fun read => readFields fuel { fields with act := some read.1 } read.2
      else if chars = codes "reqKey" then
        (string bytes).bind fun read => readFields fuel { fields with reqKey := some read.1 } read.2
      else if chars = codes "port" then (number bytes).bind fun read => readFields fuel { fields with port := some read.1 } read.2
      else none := by
  rw [readFields,if_neg (head_writeString chars bytes),key]
  rfl

theorem readFields_end (rest : Bytes) : readFields (fuel + 1) fields (0x7B :: (writeVarint 4 ++ rest)) = some fields := by
  rw [readFields,if_pos List.head?_cons,List.tail_cons,varint_write (show 4 < 2 ^ 64 by omega)]
  rfl

theorem string_codes (s : String) (scalars : ∀ c ∈ codes s, isScalar c = true) (small : (writeString (codes s)).length < 2 ^ 64)
    (rest : Bytes) : string (writeString (codes s) ++ rest) = some (codes s,rest) := string_write scalars small rest

end fields

theorem readObject_body (body : Bytes) :
    readObject (0xFF :: (writeVarint 15 ++ 0x6F :: body)) = readFields (body.length + 1) ⟨none,none,none⟩ body := by
  simp only [readObject,byte,Option.bind_eq_bind,Option.bind_some,varint_write (show 15 < 2 ^ 64 by omega)]
  rw [if_neg (not_not_intro rfl),if_neg (not_not_intro rfl)]

/-- The payload of a reply is read as its four fields. -/
theorem readObject_reply {key : Chars} (scalars : ∀ c ∈ key, isScalar c = true) (port : Option (Fin (2 ^ 16)))
    (short : (replyPayload key port).length < 2 ^ 64) :
    readObject (replyPayload key port) = some ⟨some (codes "queryServerReply"),some key,some (portValue port)⟩ := by
  have keyed := string_write scalars (by
    simp only [replyPayload,List.length_cons,List.length_append] at short
    omega)
  have fuel (rest : Bytes) : ∃ fuel, (writeString (codes "cmd") ++ rest).length + 1 = fuel + 5 :=
    ⟨rest.length + 1,by
      have five : (writeString (codes "cmd")).length = 5 := rfl
      rw [List.length_append,five]
      omega⟩
  have ending (fuel : Nat) (fields : QueryReplyFields) :
      readFields (fuel + 1) fields (0x7B :: writeVarint 4) = some fields := by
    rw [← List.append_nil (writeVarint 4)]
    exact readFields_end []
  rw [replyPayload,readObject_body]
  obtain ⟨fuel,enough⟩ := fuel (writeString (codes "NODE_CLUSTER") ++ (writeString (codes "act") ++
    (writeString (codes "queryServerReply") ++ (writeString (codes "reqKey") ++ (writeString key ++ (writeString (codes "port") ++
      (0x49 :: (writeZigzag (portValue port) ++ 0x7B :: writeVarint 4))))))))
  rw [enough,readFields_key (string_codes "cmd" (by decide) (by decide) _),if_pos rfl,
    string_codes "NODE_CLUSTER" (by decide) (by decide),Option.bind_some,
    readFields_key (string_codes "act" (by decide) (by decide) _),if_neg (by decide),if_pos rfl,
    string_codes "queryServerReply" (by decide) (by decide),Option.bind_some,
    readFields_key (string_codes "reqKey" (by decide) (by decide) _),if_neg (by decide),if_neg (by decide),if_pos rfl,
    keyed,Option.bind_some,
    readFields_key (string_codes "port" (by decide) (by decide) _),if_neg (by decide),if_neg (by decide),if_neg (by decide),
    if_pos rfl,number_write,Option.bind_some]
  exact ending fuel _

end FlatV8Reader

theorem tryConsumeAdvancedQueryReply_reply {key : Chars} (scalars : ∀ c ∈ key, isScalar c = true) (port : Option (Fin (2 ^ 16)))
    (short : (replyPayload key port).length < 2 ^ 64) :
    tryConsumeAdvancedQueryReply (replyPayload key port) = some (key,portValue port) := by
  simp only [tryConsumeAdvancedQueryReply,FlatV8Reader.readObject_reply scalars port short,Option.bind_eq_bind,Option.bind_some]
  rw [if_neg (not_not_intro rfl)]
  rfl

end Perry.Runtime.Cluster
