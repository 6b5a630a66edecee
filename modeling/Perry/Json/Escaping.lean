import Perry.Json.Literals

/-! `write_escaped_string` of `json/stringify_scalars.rs`, and its inverse, the string scanner of
the direct parser. A string's code points may be surrogates, each spelled as three bytes. -/
namespace Perry.Json

open Perry.Unicode

section writer

/-- A digit of `{:04x}`. -/
def hexByte (n : Nat) : UInt8 := if n < 10 then .ofNat (0x30 + n) else .ofNat (0x61 + n - 10)

def unicodeEscape (unit : Nat) : Bytes :=
  [backslash,lowerU,hexByte (unit / 4096 % 16),hexByte (unit / 256 % 16),hexByte (unit / 16 % 16),hexByte (unit % 16)]

def shortEscape (b : UInt8) : Option Escape :=
  if b = quote then some .quote
  else if b = backslash then some .backslash
  else if b = 0x0A then some .newline
  else if b = 0x0D then some .carriage
  else if b = 0x09 then some .tab
  else if b = 0x08 then some .backspace
  else if b = 0x0C then some .formFeed
  else none

/-- The surrogate that three bytes at the front spell, the second of them from the given one on. -/
def leadingSurrogate (lowest : UInt8) : Bytes → Option Nat
  | b :: b₁ :: b₂ :: _ =>
    if b = 0xED ∧ (lowest ≤ b₁ ∧ b₁ ≤ 0xBF) ∧ (0x80 ≤ b₂ ∧ b₂ ≤ 0xBF) then
      some (b.toNat % 16 * 4096 + b₁.toNat % 64 * 64 + b₂.toNat % 64)
    else none
  | _ => none

/-- The character of a pair whose low half is spelled next. -/
def pairAhead (high : Nat) (bytes : Bytes) : Option Bytes :=
  match if isHigh high then leadingSurrogate 0xB0 bytes else none with
  | some low => if isScalar (pairCode high low) then some (encodeUtf8 (pairCode high low)) else none
  | none => none

/-- The loop of `write_escaped_string`: the run of bytes not written yet, and the bytes ahead. -/
def escapeLoop (run : Bytes) : Bytes → Bytes
  | [] => run
  | b :: rest =>
    match leadingSurrogate 0xA0 (b :: rest) with
    | some high =>
      match pairAhead high (rest.drop 2) with
      | some character => run ++ character ++ escapeLoop [] (rest.drop 5)
      | none => run ++ unicodeEscape high ++ escapeLoop [] (rest.drop 2)
    | none =>
      match shortEscape b with
      | some e => run ++ [backslash,e.letter] ++ escapeLoop [] rest
      | none =>
        if b < 0x20 then run ++ unicodeEscape b.toNat ++ escapeLoop [] rest
        else escapeLoop (run ++ [b]) rest
termination_by bytes => bytes.length
decreasing_by
  all_goals
    rw [List.length_cons]
    first
    | exact Nat.lt_succ_of_le (List.drop_sublist _ _).length_le
    | exact Nat.lt_succ_self _

def needsEscape (b : UInt8) : Bool := b < 0x20 ∨ b = quote ∨ b = backslash ∨ b = 0xED

def writeEscapedString (s : Bytes) : Bytes :=
  if s.any needsEscape then quote :: (escapeLoop [] s ++ [quote]) else quote :: (s ++ [quote])

end writer

section strings

/-- The bytes of a string, surrogates among its code points. -/
def wtf8 (cs : List Nat) : Bytes := cs.flatMap encodeUtf8

/-- Adjacent surrogates that are a pair become its code point. -/
def joinPairs : List Nat → List Nat
  | high :: low :: rest =>
    if isHigh high ∧ isLow low then pairCode high low :: joinPairs rest else high :: joinPairs (low :: rest)
  | cs => cs

end strings

section bytes

variable {c : Nat}

theorem ofNat_ne {n : Nat} (m : Nat) (small : n < 256) (small' : m < 256) (differ : n ≠ m) : UInt8.ofNat n ≠ UInt8.ofNat m := by
  intro same
  have values := congrArg UInt8.toNat same
  rw [toNat_ofNat_of_lt small,toNat_ofNat_of_lt small'] at values
  exact differ values

theorem le_ofNat {n m : Nat} (small : n < 256) (small' : m < 256) : UInt8.ofNat n ≤ UInt8.ofNat m ↔ n ≤ m := by
  rw [UInt8.le_iff_toNat_le,toNat_ofNat_of_lt small,toNat_ofNat_of_lt small']

/-- Three bytes spell a surrogate exactly where a surrogate's code point was encoded. -/
theorem leadingSurrogate_encode (lowest : Nat) (from_tail : 0x80 ≤ lowest ∧ lowest < 256) (bound : c < 0x110000)
    (rest : Bytes) : leadingSurrogate (.ofNat lowest) (encodeUtf8 c ++ rest) =
      if c / 4096 = 13 ∧ lowest ≤ 0x80 + c / 64 % 64 then some c else none := by
  have other {b : UInt8} (differ : b ≠ 0xED) (rest : Bytes) : leadingSurrogate (.ofNat lowest) (b :: rest) = none := by
    unfold leadingSurrogate
    split
    · rename_i shape
      rw [List.cons.injEq] at shape
      rw [if_neg fun both => differ (shape.1.trans both.1)]
    · rfl
  unfold encodeUtf8
  split
  · rw [if_neg (by omega)]
    exact other (ofNat_ne 0xED (by omega) (by omega) (by omega)) rest
  split
  · rw [if_neg (by omega)]
    exact other (ofNat_ne 0xED (by omega) (by omega) (by omega)) _
  split
  · rename_i three
    by_cases here : c / 4096 = 13
    · have value : (UInt8.ofNat (0xE0 + c / 4096 % 16)).toNat % 16 * 4096 + (UInt8.ofNat (0x80 + c / 64 % 64)).toNat % 64 * 64 +
          (UInt8.ofNat (0x80 + c % 64)).toNat % 64 = c := by
        rw [toNat_ofNat_of_lt (by omega),toNat_ofNat_of_lt (by omega),toNat_ofNat_of_lt (by omega)]
        omega
      have first : UInt8.ofNat (0xE0 + c / 4096 % 16) = 0xED := by
        rw [here]
        rfl
      have middle := le_ofNat (n := lowest) (m := 0x80 + c / 64 % 64) (by omega) (by omega)
      have top (n : Nat) : UInt8.ofNat (0x80 + n % 64) ≤ 0xBF := (le_ofNat (m := 0xBF) (by omega) (by omega)).mpr (by omega)
      have bottom : 0x80 ≤ UInt8.ofNat (0x80 + c % 64) := (le_ofNat (n := 0x80) (by omega) (by omega)).mpr (by omega)
      rw [List.cons_append,List.cons_append,List.cons_append,leadingSurrogate,value]
      apply if_congr _ rfl rfl
      rw [middle]
      exact ⟨fun both => ⟨here,both.2.1.1⟩,fun both => ⟨first,⟨both.2,top _⟩,bottom,top _⟩⟩
    · rw [if_neg fun both => here both.1]
      exact other (ofNat_ne 0xED (by omega) (by omega) (by omega)) _
  · rw [if_neg (by omega)]
    exact other (ofNat_ne 0xED (by omega) (by omega) (by omega)) _

theorem leadingSurrogate_any (bound : c < 0x110000) (rest : Bytes) :
    leadingSurrogate 0xA0 (encodeUtf8 c ++ rest) = if isHigh c ∨ isLow c then some c else none := by
  have spelled := leadingSurrogate_encode 0xA0 (by omega) bound rest
  have same : (c / 4096 = 13 ∧ 0xA0 ≤ 0x80 + c / 64 % 64) ↔ isHigh c ∨ isLow c := by
    simp only [isHigh,isLow,decide_eq_true_eq]
    omega
  rw [if_congr same rfl rfl] at spelled
  exact spelled

theorem leadingSurrogate_low (bound : c < 0x110000) (rest : Bytes) :
    leadingSurrogate 0xB0 (encodeUtf8 c ++ rest) = if isLow c then some c else none := by
  have spelled := leadingSurrogate_encode 0xB0 (by omega) bound rest
  have same : (c / 4096 = 13 ∧ 0xB0 ≤ 0x80 + c / 64 % 64) ↔ isLow c := by
    simp only [isLow,decide_eq_true_eq]
    omega
  rw [if_congr same rfl rfl] at spelled
  exact spelled

theorem encode_surrogate (surrogate : isHigh c ∨ isLow c) : (encodeUtf8 c).length = 3 := by
  simp only [isHigh,isLow,decide_eq_true_eq] at surrogate
  rw [encodeUtf8,if_neg (by omega),if_neg (by omega),if_pos (by omega)]
  rfl

/-- No byte behind the first one is a lead byte. -/
theorem encode_tail (c : Nat) : ∃ b bs,encodeUtf8 c = b :: bs ∧ ∀ b ∈ bs,Plain b ∧ b ≠ 0xED := by
  have tail (n : Nat) : Plain (.ofNat (0x80 + n % 64)) ∧ UInt8.ofNat (0x80 + n % 64) ≠ 0xED := by
    refine ⟨⟨ofNat_ne 0x22 (by omega) (by omega) (by omega),ofNat_ne 0x5C (by omega) (by omega) (by omega),?_⟩,
      ofNat_ne 0xED (by omega) (by omega) (by omega)⟩
    rw [UInt8.lt_iff_toNat_lt,toNat_ofNat_of_lt (by omega)]
    exact Nat.not_lt.mpr (Nat.le_trans (by decide) (Nat.le_add_right 0x80 _))
  unfold encodeUtf8
  split
  · exact ⟨_,_,rfl,by simp⟩
  split
  · refine ⟨_,_,rfl,?_⟩
    intro b member
    rw [List.mem_singleton] at member
    rw [member]
    exact tail _
  split
  · refine ⟨_,_,rfl,?_⟩
    intro b member
    simp only [List.mem_cons,List.not_mem_nil,or_false] at member
    rcases member with rfl | rfl
    · exact tail _
    · exact tail _
  · refine ⟨_,_,rfl,?_⟩
    intro b member
    simp only [List.mem_cons,List.not_mem_nil,or_false] at member
    rcases member with rfl | rfl | rfl
    · exact tail _
    · exact tail _
    · exact tail _

theorem encode_plain (printable : ¬c < 0x20) (notQuote : c ≠ 0x22) (notBackslash : c ≠ 0x5C) : ∀ b ∈ encodeUtf8 c,Plain b := by
  obtain ⟨first,bs,spelled,tail⟩ := encode_tail c
  rw [spelled]
  intro b member
  rcases List.mem_cons.mp member with rfl | member
  · have lead {n : Nat} (small : n < 256) (other : n ≠ 0x22 ∧ n ≠ 0x5C ∧ ¬n < 0x20) : Plain (.ofNat n) := by
      refine ⟨ofNat_ne 0x22 small (by omega) other.1,ofNat_ne 0x5C small (by omega) other.2.1,?_⟩
      rw [UInt8.lt_iff_toNat_lt,toNat_ofNat_of_lt small]
      exact other.2.2
    unfold encodeUtf8 at spelled
    split at spelled
    · rw [← (List.cons.inj spelled).1]
      exact lead (by omega) ⟨notQuote,notBackslash,printable⟩
    split at spelled
    · rw [← (List.cons.inj spelled).1]
      exact lead (by omega) (by omega)
    split at spelled
    · rw [← (List.cons.inj spelled).1]
      exact lead (by omega) (by omega)
    · rw [← (List.cons.inj spelled).1]
      exact lead (by omega) (by omega)
  · exact (tail b member).1

end bytes

section items

variable {c : Nat}

theorem hexValue_hexByte : ∀ n : Fin 16,hexValue (hexByte n) = some n.val := by decide

def lowerDigit (n : Nat) : HexDigit where
  byte := hexByte (n % 16)
  valid := by rw [hexValue_hexByte ⟨n % 16,Nat.mod_lt _ (by decide)⟩]; rfl

theorem lowerDigit_value (n : Nat) : (lowerDigit n).value = n % 16 := by
  rw [HexDigit.value,lowerDigit,hexValue_hexByte ⟨n % 16,Nat.mod_lt _ (by decide)⟩]
  rfl

def unicodeItem (unit : Nat) : Item :=
  .unicode (lowerDigit (unit / 4096)) (lowerDigit (unit / 256)) (lowerDigit (unit / 16)) (lowerDigit unit)

theorem render_unicodeItem (unit : Nat) : (unicodeItem unit).render = unicodeEscape unit := rfl

/-- What a code point is written as. -/
def itemOf (c : Nat) : Item :=
  if special : c < 0x20 ∨ c = 0x22 ∨ c = 0x5C then
    match shortEscape (.ofNat c) with
    | some e => .escape e
    | none => unicodeItem c
  else if isHigh c ∨ isLow c then unicodeItem c
  else
    .raw
      { bytes := encodeUtf8 c
        some := by
          obtain ⟨b,bs,spelled,_⟩ := encode_tail c
          rw [spelled]
          exact List.cons_ne_nil b bs
        plain := by
          rw [not_or,not_or] at special
          exact encode_plain special.1 special.2.1 special.2.2 }

theorem shortEscape_byte {b : UInt8} {e : Escape} (short : shortEscape b = some e) : e.byte = b := by
  unfold shortEscape at short
  split_ifs at short with h₁ h₂ h₃ h₄ h₅ h₆ h₇ <;>
    · cases short
      symm
      assumption

theorem unitOf_unicodeItem (small : c < 0x10000) :
    unitOf (lowerDigit (c / 4096)) (lowerDigit (c / 256)) (lowerDigit (c / 16)) (lowerDigit c) = c := by
  simp only [unitOf,lowerDigit_value]
  omega

/-- An item that is read as a code unit was written for it. -/
theorem itemOf_unicode {x y z w : HexDigit} (same : itemOf c = .unicode x y z w) : unitOf x y z w = c := by
  have small : isHigh c ∨ isLow c → c < 0x10000 := by
    simp only [isHigh,isLow,decide_eq_true_eq]
    omega
  have written (small : c < 0x10000) (same : unicodeItem c = .unicode x y z w) : unitOf x y z w = c := by
    unfold unicodeItem at same
    injection same with same₁ same₂ same₃ same₄
    rw [← same₁,← same₂,← same₃,← same₄]
    exact unitOf_unicodeItem small
  unfold itemOf at same
  split at same
  · rename_i special
    split at same
    · cases same
    · exact written (by omega) same
  · split at same
    · rename_i surrogate
      exact written (small surrogate) same
    · cases same

end items

section loop

variable {c : Nat} {rest : Bytes}

theorem escapeLoop_run (run bytes : Bytes) : escapeLoop run bytes = run ++ escapeLoop [] bytes := by
  induction bytes generalizing run with
  | nil => simp [escapeLoop]
  | cons b rest ih =>
    rw [escapeLoop,escapeLoop]
    split
    · split <;> simp only [List.append_assoc,List.nil_append]
    · split
      · simp only [List.append_assoc,List.nil_append]
      · split
        · simp only [List.append_assoc,List.nil_append]
        · rw [ih,ih ([] ++ [b]),List.append_assoc,List.nil_append]

theorem escapeLoop_byte {b : UInt8} (plain : Plain b) (alone : leadingSurrogate 0xA0 (b :: rest) = none) :
    escapeLoop [] (b :: rest) = b :: escapeLoop [] rest := by
  obtain ⟨notQuote,notBackslash,printable⟩ := plain
  have control {n : UInt8} (low : n < 0x20) : b ≠ n := fun same => printable (same ▸ low)
  have unescaped : shortEscape b = none := by
    simp [shortEscape,notQuote,notBackslash,control (n := 0x0A) (by decide),control (n := 0x0D) (by decide),
      control (n := 0x09) (by decide),control (n := 0x08) (by decide),control (n := 0x0C) (by decide)]
  rw [escapeLoop,alone,unescaped]
  simp only [printable,if_false]
  rw [escapeLoop_run]
  rfl

theorem escapeLoop_bytes {bs : Bytes} (plain : ∀ b ∈ bs,Plain b ∧ b ≠ 0xED) :
    escapeLoop [] (bs ++ rest) = bs ++ escapeLoop [] rest := by
  induction bs with
  | nil => rfl
  | cons b bs ih =>
    obtain ⟨here,notLead⟩ := plain b List.mem_cons_self
    have alone : leadingSurrogate 0xA0 (b :: (bs ++ rest)) = none := by
      unfold leadingSurrogate
      split
      · rename_i shape
        rw [List.cons.injEq] at shape
        rw [if_neg fun both => notLead (shape.1.trans both.1)]
      · rfl
    rw [List.cons_append,escapeLoop_byte here alone,ih fun c member => plain c (List.mem_cons_of_mem _ member)]
    rfl

/-- A code point is written as its item, unless it is the first half of a pair. -/
theorem escapeLoop_item (bound : c < 0x110000) (apart : isHigh c = true → leadingSurrogate 0xB0 rest = none) :
    escapeLoop [] (encodeUtf8 c ++ rest) = (itemOf c).render ++ escapeLoop [] rest := by
  have leading := leadingSurrogate_any bound rest
  by_cases special : c < 0x20 ∨ c = 0x22 ∨ c = 0x5C
  · have spelled : encodeUtf8 c = [.ofNat c] := by rw [encodeUtf8,if_pos (by omega)]
    have value : (UInt8.ofNat c).toNat = c := toNat_ofNat_of_lt (by omega)
    have alone : ¬(isHigh c ∨ isLow c) := by
      simp only [isHigh,isLow,decide_eq_true_eq]
      omega
    rw [if_neg alone,spelled,List.singleton_append] at leading
    rw [spelled,List.singleton_append,escapeLoop,leading,itemOf,dif_pos special]
    cases short : shortEscape (.ofNat c) with
    | some e => rfl
    | none =>
      have control : UInt8.ofNat c < 0x20 := by
        rcases special with low | rfl | rfl
        · rw [UInt8.lt_iff_toNat_lt,value]
          exact low
        · cases short
        · cases short
      simp only [control,if_true,value]
      rfl
  · rw [itemOf,dif_neg special]
    obtain ⟨b,bs,spelled,tail⟩ := encode_tail c
    by_cases surrogate : isHigh c ∨ isLow c
    · have three := encode_surrogate surrogate
      rw [if_pos surrogate] at leading
      rw [if_pos surrogate,render_unicodeItem]
      have next : (bs ++ rest).drop 2 = rest := by
        rw [spelled,List.length_cons] at three
        exact List.drop_left' (by omega)
      have single : pairAhead c rest = none := by
        unfold pairAhead
        by_cases high : isHigh c = true
        · rw [if_pos high,apart high]
        · rw [if_neg high]
      rw [spelled,List.cons_append] at leading ⊢
      rw [escapeLoop,leading]
      simp only [next,single]
      rfl
    · rw [if_neg surrogate] at leading ⊢
      have plain := encode_plain (fun low => special (.inl low)) (fun same => special (.inr (.inl same)))
        (fun same => special (.inr (.inr same)))
      simp only [Item.render]
      rw [spelled] at plain
      rw [spelled,List.cons_append] at leading ⊢
      rw [escapeLoop_byte (plain b List.mem_cons_self) leading,escapeLoop_bytes tail]
      rfl

theorem pairCode_wide (high low : Nat) : 0x10000 ≤ pairCode high low := by
  unfold pairCode
  omega

theorem itemOf_wide (wide : 0x10000 ≤ c) : (itemOf c).render = encodeUtf8 c := by
  rw [itemOf,dif_neg (by omega),if_neg (by simp only [isHigh,isLow,decide_eq_true_eq]; omega)]
  rfl

theorem escapeLoop_pair {high low : Nat} (first : isHigh high = true) (second : isLow low = true) :
    escapeLoop [] (encodeUtf8 high ++ (encodeUtf8 low ++ rest)) =
      (itemOf (pairCode high low)).render ++ escapeLoop [] rest := by
  have range := high_range first
  have range' := low_range second
  have leading := leadingSurrogate_any (c := high) (by omega) (encodeUtf8 low ++ rest)
  have following := leadingSurrogate_low (c := low) (by omega) rest
  rw [if_pos (.inl first)] at leading
  rw [if_pos second] at following
  have ahead : pairAhead high (encodeUtf8 low ++ rest) = some (encodeUtf8 (pairCode high low)) := by
    have scalar := isScalar_pairCode first second
    rw [pairAhead,if_pos first,following]
    dsimp only
    generalize pairCode high low = joined at *
    exact if_pos scalar
  have item := itemOf_wide (pairCode_wide high low)
  obtain ⟨b,bs,spelled,_⟩ := encode_tail high
  have three := encode_surrogate (.inl first : isHigh high ∨ isLow high)
  have three' := encode_surrogate (.inr second : isHigh low ∨ isLow low)
  rw [spelled,List.length_cons] at three
  have next : (bs ++ (encodeUtf8 low ++ rest)).drop 2 = encodeUtf8 low ++ rest := List.drop_left' (by omega)
  have after : (bs ++ (encodeUtf8 low ++ rest)).drop 5 = rest := by
    rw [← List.append_assoc]
    exact List.drop_left' (by rw [List.length_append]; omega)
  rw [item]
  generalize encodeUtf8 (pairCode high low) = character at *
  rw [spelled,List.cons_append] at leading ⊢
  rw [escapeLoop,leading]
  simp only [next,ahead,after]
  rw [List.nil_append]

end loop

section strings

variable {cs : List Nat}

theorem escapeLoop_wtf8 (bound : ∀ c ∈ cs,c < 0x110000) :
    escapeLoop [] (wtf8 cs) = renderItems ((joinPairs cs).map itemOf) := by
  fun_induction joinPairs cs with
  | case1 high low cs both ih =>
    have rest := ih fun c member => bound c (List.mem_cons_of_mem _ (List.mem_cons_of_mem _ member))
    rw [wtf8,List.flatMap_cons,List.flatMap_cons,escapeLoop_pair both.1 both.2]
    exact congrArg _ rest
  | case2 high low cs apart ih =>
    have rest := ih fun c member => bound c (List.mem_cons_of_mem _ member)
    have small := bound low (List.mem_cons_of_mem _ List.mem_cons_self)
    rw [wtf8,List.flatMap_cons,escapeLoop_item (bound high List.mem_cons_self)]
    · exact congrArg _ rest
    · intro first
      rw [List.flatMap_cons,leadingSurrogate_low small,if_neg fun second => apart ⟨first,second⟩]
  | case3 cs short =>
    match cs with
    | [] => simp [wtf8,escapeLoop,renderItems]
    | [c] =>
      have one : escapeLoop [] (encodeUtf8 c ++ []) = (itemOf c).render ++ escapeLoop [] [] :=
        escapeLoop_item (bound c List.mem_cons_self) fun _ => rfl
      rw [wtf8,List.flatMap_singleton,← List.append_nil (encodeUtf8 c),one]
      simp [renderItems,escapeLoop]
    | c :: d :: cs => exact (short c d cs rfl).elim

/-- A string that needs no escape is one run of the loop. -/
theorem writeEscapedString_eq (s : Bytes) : writeEscapedString s = quote :: (escapeLoop [] s ++ [quote]) := by
  unfold writeEscapedString
  split
  · rfl
  · rename_i clean
    have plain : ∀ b ∈ s,Plain b ∧ b ≠ 0xED := by
      intro b member
      have quiet : needsEscape b = false := by
        by_contra needed
        exact clean (List.any_eq_true.mpr ⟨b,member,by simpa using needed⟩)
      simp only [needsEscape,decide_eq_false_iff_not,not_or] at quiet
      exact ⟨⟨quiet.2.1,quiet.2.2.1,quiet.1⟩,quiet.2.2.2⟩
    have whole : escapeLoop [] (s ++ []) = s ++ escapeLoop [] [] := escapeLoop_bytes plain
    rw [List.append_nil] at whole
    rw [whole,escapeLoop,List.append_nil]

theorem mem_joinPairs (bound : ∀ c ∈ cs,c < 0x110000) : ∀ c ∈ joinPairs cs,c < 0x110000 := by
  fun_induction joinPairs cs with
  | case1 high low cs both ih =>
    have joined := (units_pairCode both.1 both.2).1
    intro c member
    rcases List.mem_cons.mp member with same | member
    · rw [same]
      exact joined
    · exact ih (fun c member => bound c (List.mem_cons_of_mem _ (List.mem_cons_of_mem _ member))) c member
  | case2 high low cs apart ih =>
    intro c member
    rcases List.mem_cons.mp member with rfl | member
    · exact bound c List.mem_cons_self
    · exact ih (fun c member => bound c (List.mem_cons_of_mem _ member)) c member
  | case3 cs short => exact bound

theorem units_joinPairs : (joinPairs cs).flatMap unitsOf = cs.flatMap unitsOf := by
  fun_induction joinPairs cs with
  | case1 high low cs both ih =>
    have range := high_range both.1
    have range' := low_range both.2
    rw [List.flatMap_cons,ih,(units_pairCode both.1 both.2).2,List.flatMap_cons,List.flatMap_cons,unitsOf,
      if_pos (by omega),unitsOf,if_pos (by omega)]
    rfl
  | case2 high low cs apart ih => rw [List.flatMap_cons,ih,← List.flatMap_cons]
  | case3 cs short => rfl

/-- No pair is left apart. -/
theorem isChain_joinPairs (cs : List Nat) : (joinPairs cs).IsChain fun c d => ¬(isHigh c ∧ isLow d) := by
  fun_induction joinPairs cs with
  | case1 high low cs both ih =>
    have wide : isHigh (pairCode high low) = false := by
      simp only [isHigh,decide_eq_false_iff_not]
      have := pairCode_wide high low
      omega
    cases shape : joinPairs cs with
    | nil => exact .singleton _
    | cons d ds =>
      rw [shape] at ih
      exact .cons_cons (fun pair => by rw [wide] at pair; exact Bool.false_ne_true pair.1) ih
  | case2 high low cs apart ih =>
    have head : ∀ d ∈ (joinPairs (low :: cs)).head?,isLow d = true → d = low := by
      intro d first isLow
      cases cs with
      | nil => exact (Option.some_inj.mp first).symm
      | cons e cs =>
        rw [joinPairs] at first
        split at first
        · rename_i both
          have same := Option.some_inj.mp first
          have range := low_range isLow
          have := pairCode_wide low e
          omega
        · exact (Option.some_inj.mp first).symm
    cases shape : joinPairs (low :: cs) with
    | nil => exact .singleton _
    | cons d ds =>
      rw [shape] at ih head
      refine .cons_cons (fun pair => apart ⟨pair.1,?_⟩) ih
      rw [← head d rfl pair.2]
      exact pair.2
  | case3 cs short =>
    obtain _ | ⟨c,_ | ⟨d,cs⟩⟩ := cs
    · exact .nil
    · exact .singleton c
    · exact (short c d cs rfl).elim

theorem directBytes_itemOf {c : Nat} {items : List Item}
    (apart : ∀ x y z w rest,items = .unicode x y z w :: rest → ¬(isHigh c ∧ isLow (unitOf x y z w))) :
    directBytes (itemOf c :: items) = encodeUtf8 c ++ directBytes items := by
  have lone {x y z w : HexDigit} (unit : unitOf x y z w = c) (small : c < 0x10000) :
      directBytes (.unicode x y z w :: items) = encodeUtf8 c ++ directBytes items := by
    rw [← pushCodeUnitWtf8_eq small,← unit]
    cases items with
    | nil => rfl
    | cons item items =>
      cases item with
      | unicode x' y' z' w' =>
        have separate := apart x' y' z' w' items rfl
        rw [← unit] at separate
        rw [directBytes,if_neg separate]
      | raw r => rfl
      | escape e => rfl
  unfold itemOf
  split
  · rename_i special
    split
    · rename_i e short
      have ascii := e.byte_ascii.1
      have value : (UInt8.ofNat c).toNat = c := toNat_ofNat_of_lt (by omega)
      rw [shortEscape_byte short,value] at ascii
      rw [directBytes,ascii,shortEscape_byte short]
      rfl
    · exact lone (unitOf_unicodeItem (by omega)) (by omega)
  · split
    · rename_i surrogate
      simp only [isHigh,isLow,decide_eq_true_eq] at surrogate
      exact lone (unitOf_unicodeItem (by omega)) (by omega)
    · rw [directBytes]

theorem directBytes_map (bound : ∀ c ∈ cs,c < 0x110000) (chain : cs.IsChain fun c d => ¬(isHigh c ∧ isLow d)) :
    directBytes (cs.map itemOf) = wtf8 cs := by
  induction cs with
  | nil => rfl
  | cons c cs ih =>
    have rest := ih (fun d member => bound d (List.mem_cons_of_mem _ member)) chain.tail
    rw [List.map_cons,directBytes_itemOf,rest]
    · rfl
    · intro x y z w items shape pair
      cases cs with
      | nil => cases shape
      | cons d cs =>
        have same := itemOf_unicode (List.cons.inj shape).1
        rw [same] at pair
        exact (List.isChain_cons_cons.mp chain).1 pair

theorem utf16_wtf8 (bound : ∀ c ∈ cs,c < 0x110000) : utf16 (wtf8 cs) = cs.flatMap unitsOf := by
  induction cs with
  | nil => rw [wtf8,List.flatMap_nil,utf16,List.flatMap_nil]
  | cons c cs ih =>
    have rest := ih fun d member => bound d (List.mem_cons_of_mem _ member)
    rw [wtf8,List.flatMap_cons,utf16_encodeUtf8 (bound c List.mem_cons_self),List.flatMap_cons,← rest]
    rfl

/-- A written string is read back to its end, with its code units; adjacent surrogates that are a
pair come back as one character. -/
theorem parseStringBytes_writeEscapedString (cs : List Nat) (bound : ∀ c ∈ cs,c < 0x110000) (rest : Bytes) :
    Direct.parseStringBytes (writeEscapedString (wtf8 cs) ++ rest) = some (wtf8 (joinPairs cs),rest) ∧
      utf16 (wtf8 (joinPairs cs)) = utf16 (wtf8 cs) := by
  have joined := mem_joinPairs bound
  constructor
  · have literal := parseStringBytes_literal ((joinPairs cs).map itemOf) rest
    rw [directBytes_map joined (isChain_joinPairs cs)] at literal
    rw [writeEscapedString_eq,escapeLoop_wtf8 bound]
    exact literal
  · rw [utf16_wtf8 joined,utf16_wtf8 bound,units_joinPairs]

/-- Surrogates of both kinds between other characters. -/
theorem parseStringBytes_writeEscapedString_mixed :
    (∀ c ∈ [0xD83D,0xD83D,0xDC4D,0x22,0xDC4D,0x0A,0xE9,0xD83D],c < 0x110000) ∧
      Direct.parseStringBytes (writeEscapedString (wtf8 [0xD83D,0xD83D,0xDC4D,0x22,0xDC4D,0x0A,0xE9,0xD83D]) ++ []) =
        some (wtf8 (joinPairs [0xD83D,0xD83D,0xDC4D,0x22,0xDC4D,0x0A,0xE9,0xD83D]),[]) ∧
      utf16 (wtf8 (joinPairs [0xD83D,0xD83D,0xDC4D,0x22,0xDC4D,0x0A,0xE9,0xD83D])) =
        utf16 (wtf8 [0xD83D,0xD83D,0xDC4D,0x22,0xDC4D,0x0A,0xE9,0xD83D]) :=
  ⟨by decide,parseStringBytes_writeEscapedString _ (by decide) []⟩

end strings

end Perry.Json
