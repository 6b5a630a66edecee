import Perry.Words.Limbs

/-! The same words when the base is a power of two: single bits, shifts and the
bit-at-a-time division built from them. -/
namespace Perry.Words
open Nat (ofDigits ofDigits_cons)

variable {k : Nat} {as bs ws : List Nat} {c i n : Nat}

theorem testBit_value (width : 0 < k) (digits : Digits (2 ^ k) ws) (i : Nat) :
    (ofDigits (2 ^ k) ws).testBit i = (ws.getD (i / k) 0).testBit (i % k) := by
  induction ws generalizing i with
  | nil => simp
  | cons w ws ih =>
    rw [digits_cons] at digits
    rw [ofDigits_cons,Nat.add_comm,Nat.testBit_two_pow_mul_add _ digits.1]
    split
    · rename_i low
      rw [Nat.div_eq_of_lt low,Nat.mod_eq_of_lt low]
      rfl
    · rename_i high
      have carried : i = (i - k) + k := by omega
      rw [ih digits.2,carried,Nat.add_div_right _ width,Nat.add_mod_right]
      simp

/-- Shift the words up by one bit. -/
def shiftLeftOne (k : Nat) : List Nat → Nat → List Nat
  | w :: ws,carry => ((w <<< 1) % 2 ^ k ||| carry) :: shiftLeftOne k ws (w >>> (k - 1))
  | [],_ => []

@[simp] theorem shiftLeftOne_length : (shiftLeftOne k ws c).length = ws.length := by
  induction ws generalizing c with
  | nil => rfl
  | cons w ws ih => simp [shiftLeftOne,ih]

/-- The word a shift writes and the bit it carries on are the doubled word and carry. -/
theorem shiftLeftOne_word (width : 0 < k) (w : Nat) (carry : c < 2) :
    ((w <<< 1) % 2 ^ k ||| c) = (2 * w + c) % 2 ^ k ∧ w >>> (k - 1) = (2 * w + c) / 2 ^ k := by
  obtain ⟨m,rfl⟩ := Nat.exists_eq_succ_of_ne_zero width.ne'
  have split := Nat.mod_add_div w (2 ^ m)
  have below := Nat.mod_lt w (Nat.two_pow_pos m)
  have doubled : 2 * w + c = (2 * (w % 2 ^ m) + c) + 2 ^ (m + 1) * (w / 2 ^ m) := by
    rw [pow_succ]
    calc 2 * w + c = 2 * (w % 2 ^ m + 2 ^ m * (w / 2 ^ m)) + c := by rw [split]
      _ = 2 * (w % 2 ^ m) + c + 2 ^ m * 2 * (w / 2 ^ m) := by ring
  have fits : 2 * (w % 2 ^ m) + c < 2 ^ (m + 1) := by
    rw [pow_succ]
    omega
  constructor
  · have even : (w <<< 1) % 2 ^ (m + 1) = 2 ^ 1 * (w % 2 ^ m) := by
      rw [Nat.shiftLeft_eq,Nat.mul_comm,pow_one,pow_succ',Nat.mul_mod_mul_left]
    rw [Nat.succ_eq_add_one,even,← Nat.two_pow_add_eq_or_of_lt (by simpa using carry),doubled,
      Nat.add_mul_mod_self_left,Nat.mod_eq_of_lt fits,pow_one]
  · rw [Nat.succ_eq_add_one,doubled,Nat.add_mul_div_left _ _ (Nat.two_pow_pos _),
      Nat.div_eq_of_lt fits,Nat.shiftRight_eq_div_pow,Nat.add_sub_cancel,Nat.zero_add]

theorem shiftLeftOne_digits (width : 0 < k) (digits : Digits (2 ^ k) ws) (carry : c < 2) :
    Digits (2 ^ k) (shiftLeftOne k ws c) := by
  induction ws generalizing c with
  | nil => exact .nil
  | cons w ws ih =>
    rw [digits_cons] at digits
    have word := shiftLeftOne_word width w carry
    rw [shiftLeftOne,word.1,word.2]
    refine digits_cons.mpr ⟨Nat.mod_lt _ (Nat.two_pow_pos k),ih digits.2 ?_⟩
    exact Nat.div_lt_of_lt_mul (by omega)

theorem shiftLeftOne_value (width : 0 < k) (digits : Digits (2 ^ k) ws) (carry : c < 2) :
    ofDigits (2 ^ k) (shiftLeftOne k ws c) =
      (2 * ofDigits (2 ^ k) ws + c) % (2 ^ k) ^ ws.length := by
  induction ws generalizing c with
  | nil => simp [shiftLeftOne,Nat.mod_one]
  | cons w ws ih =>
    rw [digits_cons] at digits
    have word := shiftLeftOne_word width w carry
    have next : (2 * w + c) / 2 ^ k < 2 := Nat.div_lt_of_lt_mul (by omega)
    have whole : 2 * (w + 2 ^ k * ofDigits (2 ^ k) ws) + c =
        (2 * w + c) + 2 ^ k * (2 * ofDigits (2 ^ k) ws) := by ring
    rw [shiftLeftOne,word.1,word.2,ofDigits_cons,ofDigits_cons,ih digits.2 next,List.length_cons,
      whole,pow_succ',Nat.mod_mul,Nat.add_mul_mod_self_left,
      Nat.add_mul_div_left _ _ (Nat.two_pow_pos k),Nat.add_comm ((2 * w + c) / 2 ^ k)]

/-- The index of the highest set bit. -/
def highestSetBit (k : Nat) : List Nat → Option Nat
  | w :: ws =>
    match highestSetBit k ws with
    | some i => some (k + i)
    | none => if w = 0 then none else some w.log2
  | [] => none

theorem highestSetBit_value (digits : Digits (2 ^ k) ws) :
    highestSetBit k ws =
      if ofDigits (2 ^ k) ws = 0 then none else some (ofDigits (2 ^ k) ws).log2 := by
  induction ws with
  | nil => rfl
  | cons w ws ih =>
    rw [digits_cons] at digits
    rw [highestSetBit,ih digits.2,ofDigits_cons]
    by_cases empty : ofDigits (2 ^ k) ws = 0
    · simp [empty]
    · have above : w + 2 ^ k * ofDigits (2 ^ k) ws ≠ 0 := by
        have := Nat.mul_pos (Nat.two_pow_pos k) (Nat.pos_of_ne_zero empty)
        omega
      have low := Nat.mul_le_mul_left (2 ^ k) (Nat.log2_self_le empty)
      have high := Nat.mul_le_mul_left (2 ^ k) (Nat.succ_le_of_lt 
        (@Nat.lt_log2_self (ofDigits (2 ^ k) ws)))
      have top : (w + 2 ^ k * ofDigits (2 ^ k) ws).log2 = k + (ofDigits (2 ^ k) ws).log2 := by
        rw [Nat.log2_eq_iff above,Nat.add_assoc,pow_add,pow_add 2 k]
        constructor
        · omega
        · rw [Nat.mul_succ] at high
          omega
      rw [if_neg empty,if_neg above,top]

/-- Set one bit. -/
def setBit (k : Nat) (ws : List Nat) (i : Nat) : List Nat :=
  ws.modify (i / k) (· ||| 1 <<< (i % k))

@[simp] theorem setBit_length : (setBit k ws i).length = ws.length := by simp [setBit]

theorem setBit_digits (width : 0 < k) (digits : Digits (2 ^ k) ws) :
    Digits (2 ^ k) (setBit k ws i) := by
  intro w mem
  obtain ⟨j,bound,rfl⟩ := List.mem_iff_getElem.mp mem
  rw [setBit_length] at bound
  have word : ws[j] < 2 ^ k := digits _ (List.getElem_mem bound)
  simp only [setBit,List.getElem_modify]
  split
  · apply Nat.or_lt_two_pow word
    rw [Nat.one_shiftLeft]
    exact Nat.pow_lt_pow_right (by omega) (Nat.mod_lt i width)
  · exact word

theorem setBit_value (width : 0 < k) (digits : Digits (2 ^ k) ws) (inside : i / k < ws.length) :
    ofDigits (2 ^ k) (setBit k ws i) = ofDigits (2 ^ k) ws ||| 2 ^ i := by
  apply Nat.eq_of_testBit_eq
  intro j
  rw [testBit_value width (setBit_digits width digits),Nat.testBit_or,testBit_value width digits,
    Nat.testBit_two_pow]
  by_cases word : j / k = i / k
  · have same : i = j ↔ i % k = j % k := by
      constructor
      · rintro rfl
        rfl
      · intro bit
        rw [← Nat.div_add_mod i k,← Nat.div_add_mod j k,word,bit]
    simp [setBit,List.getD_eq_getElem?_getD,word,inside,Nat.one_shiftLeft,
      Nat.testBit_two_pow,same]
  · have other : i ≠ j := fun eq => word (by rw [eq])
    have apart : i / k ≠ j / k := fun eq => word eq.symm
    simp [setBit,List.getD_eq_getElem?_getD,other,apart]

/-- The words of the low `n` bits. -/
def lowBits (k : Nat) (ws : List Nat) (n : Nat) : List Nat :=
  ws.mapIdx fun i w =>
    if i < n / k then w
    else if i = n / k ∧ 0 < n % k then w &&& (1 <<< (n % k) - 1)
    else 0

@[simp] theorem lowBits_length : (lowBits k ws n).length = ws.length := by simp [lowBits]

theorem lowBits_digits (digits : Digits (2 ^ k) ws) : Digits (2 ^ k) (lowBits k ws n) := by
  intro w mem
  obtain ⟨j,bound,rfl⟩ := List.mem_mapIdx.mp mem
  have word : ws[j] < 2 ^ k := digits _ (List.getElem_mem bound)
  split
  · exact word
  · split
    · exact Nat.lt_of_le_of_lt Nat.and_le_left word
    · exact Nat.two_pow_pos k

theorem lowBits_value (width : 0 < k) (digits : Digits (2 ^ k) ws) :
    ofDigits (2 ^ k) (lowBits k ws n) = ofDigits (2 ^ k) ws % 2 ^ n := by
  apply Nat.eq_of_testBit_eq
  intro j
  rw [testBit_value width (lowBits_digits digits),Nat.testBit_mod_two_pow,
    testBit_value width digits]
  have low := Nat.div_add_mod j k
  have cut := Nat.div_add_mod n k
  have bit := Nat.mod_lt j width
  have edge := Nat.mod_lt n width
  simp only [lowBits,List.getD_eq_getElem?_getD,List.getElem?_mapIdx]
  rcases Nat.lt_trichotomy (j / k) (n / k) with below | same | above
  · have scaled := Nat.mul_le_mul_left k below
    have inside : j < n := by
      rw [Nat.mul_succ] at scaled
      omega
    cases ws[j / k]? with
    | none => simp
    | some w => simp [below,inside]
  · have inside : j < n ↔ j % k < n % k := by
      rw [← low,← cut,same]
      simp
    cases ws[j / k]? with
    | none => simp
    | some w =>
      by_cases clear : 0 < n % k
      · simp [same,clear,inside,Nat.one_shiftLeft]
      · simp [same,clear,inside]
        omega
  · have scaled := Nat.mul_le_mul_left k above
    have outside : ¬ j < n := by
      rw [Nat.mul_succ] at scaled
      omega
    cases ws[j / k]? with
    | none => simp
    | some w => simp [Nat.not_lt_of_gt above,Nat.ne_of_gt above,outside]

/-- Shift the words down by `n` bits. -/
def shiftRight (k : Nat) (ws : List Nat) (n : Nat) : List Nat :=
  (List.range ws.length).map fun i =>
    let lo := ws.getD (i + n / k) 0
    if n % k = 0 then lo
    else lo >>> (n % k) ||| (ws.getD (i + n / k + 1) 0 <<< (k - n % k)) % 2 ^ k

@[simp] theorem shiftRight_length : (shiftRight k ws n).length = ws.length := by simp [shiftRight]

theorem Digits.getD (digits : Digits (2 ^ k) ws) (i : Nat) : ws.getD i 0 < 2 ^ k := by
  by_cases inside : i < ws.length
  · rw [List.getD_eq_getElem _ _ inside]
    exact digits _ (List.getElem_mem inside)
  · rw [List.getD_eq_default _ _ (by omega)]
    exact Nat.two_pow_pos k

theorem shiftRight_digits (digits : Digits (2 ^ k) ws) : Digits (2 ^ k) (shiftRight k ws n) := by
  intro w mem
  obtain ⟨i,-,rfl⟩ := List.mem_map.mp mem
  dsimp only
  split
  · exact digits.getD _
  · apply Nat.or_lt_two_pow
    · exact Nat.lt_of_le_of_lt (Nat.shiftRight_le _ _) (digits.getD _)
    · exact Nat.mod_lt _ (Nat.two_pow_pos k)

theorem shiftRight_value (width : 0 < k) (digits : Digits (2 ^ k) ws) :
    ofDigits (2 ^ k) (shiftRight k ws n) = ofDigits (2 ^ k) ws / 2 ^ n := by
  apply Nat.eq_of_testBit_eq
  intro j
  rw [testBit_value width (shiftRight_digits digits),Nat.testBit_div_two_pow,
    testBit_value width digits]
  have bit := Nat.mod_lt j width
  have edge := Nat.mod_lt n width
  by_cases inside : j / k < ws.length
  · have word : (shiftRight k ws n).getD (j / k) 0 =
        if n % k = 0 then ws.getD (j / k + n / k) 0
        else ws.getD (j / k + n / k) 0 >>> (n % k) |||
          (ws.getD (j / k + n / k + 1) 0 <<< (k - n % k)) % 2 ^ k := by
      simp [shiftRight,List.getD_eq_getElem?_getD,inside]
    rw [word]
    -- the bit lies in the word shifted down, or in the next one when the two offsets carry
    by_cases carry : n % k + j % k < k
    · have place : (j + n) / k = j / k + n / k ∧ (j + n) % k = j % k + n % k := by
        rw [Nat.add_div width,Nat.add_mod,if_neg (by omega),Nat.mod_eq_of_lt (by omega)]
        exact ⟨rfl,rfl⟩
      rw [place.1,place.2]
      split
      · rename_i whole
        rw [whole,Nat.add_zero]
      · have short : ¬ k - n % k ≤ j % k := by omega
        simp [short,Nat.add_comm]
    · have place : (j + n) / k = j / k + n / k + 1 ∧ (j + n) % k = j % k - (k - n % k) := by
        rw [Nat.add_div width,Nat.add_mod,if_pos (by omega),Nat.mod_eq_sub_mod (by omega),
          Nat.mod_eq_of_lt (by omega)]
        exact ⟨rfl,by omega⟩
      have above : (ws.getD (j / k + n / k) 0).testBit (n % k + j % k) = false :=
        Nat.testBit_lt_two_pow (Nat.lt_of_lt_of_le (digits.getD _)
          (Nat.pow_le_pow_right (by omega) (by omega)))
      have reach : k - n % k ≤ j % k := by omega
      have some : n % k ≠ 0 := by omega
      rw [place.1,place.2,if_neg some,Nat.testBit_or,Nat.testBit_shiftRight,above]
      simp [reach,bit]
  · have far : ws.length ≤ (j + n) / k :=
      Nat.le_trans (Nat.le_of_not_lt inside) (Nat.div_le_div_right (by omega))
    rw [List.getD_eq_default _ _ (by simpa using inside),List.getD_eq_default _ _ far]
    simp

section LongDivision

/-- Bring one bit of the dividend into the remainder, and take the divisor out of it
if it fits. -/
def divideBit (k : Nat) (as bs : List Nat) (n : Nat) :
    List Nat × List Nat → List Nat × List Nat
  | (quotient,remainder) =>
    let shifted := (shiftLeftOne k remainder 0).modify 0
      (· ||| ((as.getD (n / k) 0 >>> (n % k)) &&& 1))
    if compareHigh shifted bs = .lt then (quotient,shifted)
    else (setBit k quotient n,(subBorrow (2 ^ k) shifted bs 0).1)

/-- Long division over the low `n` bits of the dividend, from the highest. -/
def divideBits (k : Nat) (as bs : List Nat) : Nat → List Nat × List Nat → List Nat × List Nat
  | 0,pair => pair
  | n + 1,pair => divideBits k as bs n (divideBit k as bs n pair)

/-- Both words have the width of the division. -/
structure Shaped (k size : Nat) (pair : List Nat × List Nat) : Prop where
  quotientSize : pair.1.length = size
  quotientDigits : Digits (2 ^ k) pair.1
  remainderSize : pair.2.length = size
  remainderDigits : Digits (2 ^ k) pair.2

/-- The words hold the quotient and the remainder of the bits from `n` up. -/
structure Divided (k size dividend divisor n : Nat) (pair : List Nat × List Nat) : Prop
    extends Shaped k size pair where
  quotient : ofDigits (2 ^ k) pair.1 = 2 ^ n * (dividend / 2 ^ n / divisor)
  remainder : ofDigits (2 ^ k) pair.2 = dividend / 2 ^ n % divisor

variable {size dividend divisor : Nat} {pair : List Nat × List Nat}

theorem div_two_pow_succ (dividend n : Nat) :
    dividend / 2 ^ n = 2 * (dividend / 2 ^ (n + 1)) + (dividend.testBit n).toNat := by
  rw [Nat.toNat_testBit,pow_succ,← Nat.div_div_eq_div_mul]
  omega

theorem divide_step (positive : 0 < divisor) (x b : Nat) (bit : b ≤ 1) :
    if 2 * (x % divisor) + b < divisor then
      (2 * x + b) / divisor = 2 * (x / divisor) ∧ (2 * x + b) % divisor = 2 * (x % divisor) + b
    else
      (2 * x + b) / divisor = 2 * (x / divisor) + 1 ∧
        (2 * x + b) % divisor = 2 * (x % divisor) + b - divisor := by
  have split := Nat.mod_add_div x divisor
  have below := Nat.mod_lt x positive
  split
  · rename_i small
    rw [Nat.div_mod_unique positive]
    exact ⟨by linear_combination 2 * split,small⟩
  · rw [Nat.div_mod_unique positive]
    refine ⟨?_,by omega⟩
    obtain ⟨extra,large⟩ := Nat.exists_eq_add_of_le (Nat.le_of_not_lt ‹_›)
    have rest : 2 * (x % divisor) + b - divisor = extra := by omega
    rw [rest]
    linear_combination 2 * split - large

/-- The shifted remainder with the dividend's next bit in its lowest place. -/
theorem shifted_eq (width : 0 < k) (dividendDigits : Digits (2 ^ k) as) (n : Nat) :
    (shiftLeftOne k ws 0).modify 0 (· ||| ((as.getD (n / k) 0 >>> (n % k)) &&& 1)) =
      shiftLeftOne k ws ((ofDigits (2 ^ k) as).testBit n).toNat := by
  have bit : (as.getD (n / k) 0 >>> (n % k)) &&& 1 =
      ((ofDigits (2 ^ k) as).testBit n).toNat := by
    rw [testBit_value width dividendDigits,Nat.toNat_testBit,Nat.and_one_is_mod,
      Nat.shiftRight_eq_div_pow]
  rw [bit]
  cases ws with
  | nil => rfl
  | cons w ws => simp [shiftLeftOne]

theorem divideBit_shaped (width : 0 < k) (dividendDigits : Digits (2 ^ k) as)
    (divisorDigits : Digits (2 ^ k) bs) (divisorSize : bs.length = size)
    (shaped : Shaped k size pair) : Shaped k size (divideBit k as bs n pair) := by
  obtain ⟨quotient,remainder⟩ := pair
  obtain ⟨quotientSize,quotientDigits,remainderSize,remainderDigits⟩ := shaped
  have bit := Bool.toNat_lt ((ofDigits (2 ^ k) as).testBit n)
  rw [divideBit,shifted_eq width dividendDigits]
  generalize ((ofDigits (2 ^ k) as).testBit n).toNat = b at *
  have shiftedSize : (shiftLeftOne k remainder b).length = size :=
    shiftLeftOne_length.trans remainderSize
  have shiftedDigits := shiftLeftOne_digits width remainderDigits bit
  split
  · exact ⟨quotientSize,quotientDigits,shiftedSize,shiftedDigits⟩
  · refine ⟨setBit_length.trans quotientSize,setBit_digits width quotientDigits,?_,
      subBorrow_digits shiftedDigits divisorDigits (Nat.zero_le 1)⟩
    rw [subBorrow_length (shiftedSize.trans divisorSize.symm),shiftedSize]

theorem divideBits_shaped (width : 0 < k) (dividendDigits : Digits (2 ^ k) as)
    (divisorDigits : Digits (2 ^ k) bs) (divisorSize : bs.length = size) (n : Nat)
    (shaped : Shaped k size pair) : Shaped k size (divideBits k as bs n pair) := by
  induction n generalizing pair with
  | zero => exact shaped
  | succ n ih => exact ih (divideBit_shaped width dividendDigits divisorDigits divisorSize shaped)

theorem divideBit_divided (width : 0 < k) (dividendDigits : Digits (2 ^ k) as)
    (divisorDigits : Digits (2 ^ k) bs) (divisorSize : bs.length = size)
    (positive : 0 < ofDigits (2 ^ k) bs) (room : 2 * ofDigits (2 ^ k) bs ≤ (2 ^ k) ^ size)
    (inside : n < k * size)
    (divided : Divided k size (ofDigits (2 ^ k) as) (ofDigits (2 ^ k) bs) (n + 1) pair) :
    Divided k size (ofDigits (2 ^ k) as) (ofDigits (2 ^ k) bs) n (divideBit k as bs n pair) := by
  have shaped := divideBit_shaped (n := n) width dividendDigits divisorDigits divisorSize
    divided.toShaped
  suffices values : ofDigits (2 ^ k) (divideBit k as bs n pair).1 =
        2 ^ n * (ofDigits (2 ^ k) as / 2 ^ n / ofDigits (2 ^ k) bs) ∧
      ofDigits (2 ^ k) (divideBit k as bs n pair).2 =
        ofDigits (2 ^ k) as / 2 ^ n % ofDigits (2 ^ k) bs from ⟨shaped,values.1,values.2⟩
  clear shaped
  obtain ⟨quotient,remainder⟩ := pair
  obtain ⟨⟨quotientSize,quotientDigits,remainderSize,remainderDigits⟩,
    quotientValue,remainderValue⟩ := divided
  dsimp only at *
  have next := div_two_pow_succ (ofDigits (2 ^ k) as) n
  have bit := Bool.toNat_lt ((ofDigits (2 ^ k) as).testBit n)
  rw [divideBit,shifted_eq width dividendDigits]
  generalize ((ofDigits (2 ^ k) as).testBit n).toNat = b at *
  generalize (ofDigits (2 ^ k) as) / 2 ^ (n + 1) = x at *
  have below := Nat.mod_lt x positive
  have step := divide_step positive x b (by omega)
  have shiftedDigits := shiftLeftOne_digits width remainderDigits bit
  have sizes : (shiftLeftOne k remainder b).length = bs.length := by
    rw [shiftLeftOne_length,remainderSize,divisorSize]
  have shifted : ofDigits (2 ^ k) (shiftLeftOne k remainder b) =
      2 * (x % ofDigits (2 ^ k) bs) + b := by
    rw [shiftLeftOne_value width remainderDigits bit,remainderValue,remainderSize,
      Nat.mod_eq_of_lt (by omega)]
  rw [compareHigh_value sizes shiftedDigits divisorDigits,shifted]
  split
  · rename_i small
    rw [Nat.compare_eq_lt] at small
    rw [if_pos small] at step
    constructor
    · rw [quotientValue,next,step.1]
      ring
    · rw [shifted,next,step.2]
  · rename_i large
    rw [Nat.compare_eq_lt] at large
    rw [if_neg large] at step
    have place : n / k < quotient.length := by
      rw [quotientSize]
      exact Nat.div_lt_of_lt_mul inside
    constructor
    · rw [setBit_value width quotientDigits place,quotientValue,next,step.1,
        ← Nat.two_pow_add_eq_or_of_lt (Nat.pow_lt_pow_right (by omega) (Nat.lt_add_one n))]
      ring
    · rw [subBorrow_sub (Nat.one_lt_two_pow width.ne') sizes shiftedDigits divisorDigits (by omega),
        shifted,next,step.2]

/-- Long division from the bits at and above `n`, down to the last one. -/
theorem divideBits_divided (width : 0 < k) (dividendDigits : Digits (2 ^ k) as)
    (divisorDigits : Digits (2 ^ k) bs) (divisorSize : bs.length = size)
    (positive : 0 < ofDigits (2 ^ k) bs) (room : 2 * ofDigits (2 ^ k) bs ≤ (2 ^ k) ^ size)
    (inside : n ≤ k * size)
    (divided : Divided k size (ofDigits (2 ^ k) as) (ofDigits (2 ^ k) bs) n pair) :
    Divided k size (ofDigits (2 ^ k) as) (ofDigits (2 ^ k) bs) 0 (divideBits k as bs n pair) := by
  induction n generalizing pair with
  | zero => exact divided
  | succ n ih =>
    exact ih (by omega) (divideBit_divided width dividendDigits divisorDigits divisorSize positive
      room inside divided)

theorem Shaped.start (k size : Nat) :
    Shaped k size (List.replicate size 0,List.replicate size 0) := by
  have zeros : Digits (2 ^ k) (List.replicate size 0) := .replicate size (Nat.two_pow_pos k)
  exact ⟨List.length_replicate,zeros,List.length_replicate,zeros⟩

theorem Divided.start (small : dividend < 2 ^ n) :
    Divided k size dividend divisor n (List.replicate size 0,List.replicate size 0) := by
  refine ⟨.start k size,?_,?_⟩
  · simp [Nat.div_eq_of_lt small]
  · simp [Nat.div_eq_of_lt small]

end LongDivision
end Perry.Words
