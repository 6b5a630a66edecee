import Perry.Runtime.BigIntArith
import Perry.Words.Shifts

/-! The shifts and the residues of `bigint/bitwise.rs`. A left shift works on the magnitude
and is checked; a right shift, and the cut to a number of bits, work on the two's complement
limbs. -/
namespace Perry.Runtime.BigInt

open Perry.Words
open Nat (ofDigits)
open Limbs

variable {a b : Limbs} {z : Int} {n shift : Nat}

abbrev bigintBits : Nat := 1024

section definitions

/-- `shl_checked`. -/
def shlChecked (a : Limbs) (shift : Nat) : Outcome :=
  if shift = 0 ∨ a = zero then .ok a
  else if bigintBits ≤ shift then throwBigintOverflow
  else
    let negative := a.isNegative
    let wide := shiftLeft 64 a.magnitude.words shift (2 * bigintLimbs)
    if magnitudeFits1024 wide negative then
      let result : Limbs := ⟨wide.take bigintLimbs,by rw [List.length_take,shiftLeft_length]; rfl,
        (shiftLeft_digits a.magnitude.small).take _⟩
      .ok (if negative then negateLimbs result else result)
    else throwBigintOverflow

/-- The sign, on every bit of a limb. -/
def fill (a : Limbs) : Nat := if a.isNegative then base - 1 else 0

theorem fill_lt (a : Limbs) : fill a < 2 ^ 64 := by
  unfold fill
  split <;> decide

def filled (a : Limbs) : Limbs :=
  ⟨List.replicate bigintLimbs (fill a),List.length_replicate,.replicate _ (fill_lt a)⟩

/-- `shr_limbs`. -/
def shrLimbs (a : Limbs) (shift : Nat) : Limbs :=
  if bigintBits ≤ shift then filled a
  else ⟨shiftRightFill 64 a.words (fill a) shift,by rw [shiftRightFill_length,a.size],
    shiftRightFill_digits a.small (fill_lt a)⟩

/-- `shift_count`: the magnitude of the count, and whether the count is negative. -/
def shiftCount (b : Limbs) : Nat × Bool :=
  let mag := b.magnitude
  if (mag.words.drop 1).any (· != 0) then (bigintBits,b.isNegative) else (mag.words.getD 0 0,b.isNegative)

/-- `js_bigint_shl`. -/
def jsBigintShl (a b : Limbs) : Outcome :=
  let (shift,negative) := shiftCount b
  if negative then .ok (shrLimbs a shift) else shlChecked a shift

/-- `js_bigint_shr`. -/
def jsBigintShr (a b : Limbs) : Outcome :=
  let (shift,negative) := shiftCount b
  if negative then shlChecked a shift else .ok (shrLimbs a shift)

theorem lowBits_size (a : Limbs) (bits : Nat) : (lowBits 64 a.words bits).length = bigintLimbs :=
  lowBits_length.trans a.size

theorem lowBits_small (a : Limbs) (bits : Nat) : Digits base (lowBits 64 a.words bits) := lowBits_digits a.small

/-- `mask_low_bits`. -/
def maskLowBits (a : Limbs) (bits : Nat) : Limbs :=
  if bigintBits ≤ bits then a else ⟨lowBits 64 a.words bits,lowBits_size a bits,lowBits_small a bits⟩

/-- `js_bigint_as_uint_n`. -/
def jsBigintAsUintN (bits : UInt32) (a : Limbs) : Outcome := .ok (maskLowBits a bits.toNat)

theorem setFrom_size (a : Limbs) (bits : Nat) : (setFrom 64 a.words bits).length = bigintLimbs :=
  setFrom_length.trans a.size

theorem setFrom_small (a : Limbs) (bits : Nat) : Digits base (setFrom 64 a.words bits) := setFrom_digits a.small

/-- The sign extension of `js_bigint_as_int_n`. -/
def extendSign (masked : Limbs) (bits : Nat) : Limbs :=
  ⟨setFrom 64 masked.words bits,setFrom_size masked bits,setFrom_small masked bits⟩

/-- `js_bigint_as_int_n`. -/
def jsBigintAsIntN (bits : UInt32) (a : Limbs) : Outcome :=
  if bits.toNat = 0 then .ok zero
  else if bigintBits ≤ bits.toNat then .ok a
  else
    let masked := maskLowBits a bits.toNat
    if masked.words.getD ((bits.toNat - 1) / 64) 0 >>> ((bits.toNat - 1) % 64) &&& 1 = 1 then
      .ok (extendSign masked bits.toNat)
    else .ok masked

end definitions

section shifts

theorem whole_bits : 2 ^ bigintBits = 2 * limit := by
  rw [← base_pow,← pow_mul]
  exact congrArg (2 ^ ·) (show bigintBits = 64 * bigintLimbs from rfl)

theorem not_inRange_shift (some : a ≠ zero) (far : bigintBits ≤ n) : ¬InRange (a.toInt * 2 ^ n) := by
  have power : ((2 ^ bigintBits : Nat) : Int) ≤ 2 ^ n := by
    push_cast
    exact pow_le_pow_right₀ (by decide) far
  have room := limit_pos
  rw [whole_bits] at power
  have nonzero : a.toInt ≠ 0 := fun none => some (toInt_eq_zero_iff.mp none)
  unfold InRange
  obtain negative | positive := Int.lt_or_gt_of_ne nonzero
  · have : a.toInt * 2 ^ n ≤ -1 * 2 ^ n := Int.mul_le_mul_of_nonneg_right (by omega) (by omega)
    omega
  · have : 1 * 2 ^ n ≤ a.toInt * 2 ^ n := Int.mul_le_mul_of_nonneg_right (by omega) (by omega)
    omega

/-- A count that `shift_count` saturates shifts as far as the count it stands for. -/
def Counts (shift n : Nat) : Prop := shift = n ∨ bigintBits ≤ shift ∧ bigintBits ≤ n

theorem shlChecked_exact (counts : Counts shift n) : Exact (shlChecked a shift) (a.toInt * 2 ^ n) := by
  rw [shlChecked]
  by_cases none : a = zero
  · rw [if_pos (.inr none),none,toInt_zero,Int.zero_mul]
    exact .ok toInt_zero
  obtain rfl | ⟨far,far'⟩ := counts
  · by_cases still : shift = 0
    · rw [if_pos (.inl still),still,pow_zero,Int.mul_one]
      exact .ok rfl
    rw [if_neg (by simp [still,none])]
    split
    · next far => exact .overflow (not_inRange_shift none far)
    · next near =>
      have magnitude : ofDigits base (shiftLeft 64 a.magnitude.words shift (2 * bigintLimbs)) =
          (a.toInt * 2 ^ shift).natAbs := by
        rw [shiftLeft_value (by decide) a.magnitude.small,Int.natAbs_mul,Int.natAbs_pow]
        change a.magnitude.toNat * 2 ^ shift % _ = _ * 2 ^ shift
        rw [← toNat_magnitude]
        apply Nat.mod_eq_of_lt
        calc a.magnitude.toNat * 2 ^ shift < 2 ^ bigintBits * 2 ^ bigintBits := by
              apply Nat.mul_lt_mul_of_lt_of_lt
              · rw [whole_bits]
                exact a.magnitude.toNat_lt
              · exact Nat.pow_lt_pow_right (by decide) (Nat.lt_of_not_le near)
          _ = 2 ^ (64 * (2 * bigintLimbs)) := by
              rw [← pow_add]
              exact congrArg (2 ^ ·) (show bigintBits + bigintBits = 64 * (2 * bigintLimbs) from rfl)
      have sign : a.toInt * 2 ^ shift =
          if a.isNegative then -((a.toInt * 2 ^ shift).natAbs : Int) else (a.toInt * 2 ^ shift).natAbs := by
        have power : (0 : Int) < 2 ^ shift := by positivity
        split
        · next negative =>
          have := Int.mul_neg_of_neg_of_pos (isNegative_iff_toInt.mp negative) power
          omega
        · next positive =>
          rw [isNegative_iff_toInt,not_lt] at positive
          have := Int.mul_nonneg positive (Int.le_of_lt power)
          omega
      exact .ofMagnitude shiftLeft_length (shiftLeft_digits a.magnitude.small) magnitude sign _ _
  · have moved : shift ≠ 0 := (Nat.lt_of_lt_of_le (by decide) far).ne'
    rw [if_neg (by simp [none,moved]),if_pos far]
    exact .overflow (not_inRange_shift none far')

theorem toInt_of_le (above : limit ≤ a.toNat) : a.toInt = a.toNat - 2 * limit := by
  rw [toInt,signed,if_neg (by omega)]

theorem toInt_filled (a : Limbs) : (filled a).toInt = if a.isNegative then -1 else 0 := by
  have room := limit_pos
  have top := value_replicate_top (B := base) (by decide) bigintLimbs
  rw [base_pow] at top
  have words : (filled a).toNat = ofDigits base (List.replicate bigintLimbs (fill a)) := rfl
  by_cases negative : a.isNegative
  · have copies : fill a = base - 1 := if_pos negative
    have value : (filled a).toNat = 2 * limit - 1 := by
      rw [words,copies]
      omega
    rw [if_pos negative,toInt_of_le (by omega),value]
    omega
  · have copies : fill a = 0 := if_neg negative
    have value : (filled a).toNat = 0 := by
      rw [words,copies]
      exact Nat.ofDigits_replicate_zero
    rw [if_neg negative,toInt_eq_zero_iff,← toNat_eq_zero_iff,value]

/-- A shift by all the bits leaves the sign. -/
theorem far_floor (a : Limbs) (far : bigintBits ≤ n) : a.toInt / 2 ^ n = if a.isNegative then -1 else 0 := by
  have range := a.toInt_inRange
  have room := limit_pos
  have power : ((2 ^ bigintBits : Nat) : Int) ≤ 2 ^ n := by
    push_cast
    exact pow_le_pow_right₀ (by decide) far
  rw [whole_bits] at power
  unfold InRange at range
  split
  · next negative =>
    rw [isNegative_iff_toInt] at negative
    have low : -1 ≤ a.toInt / 2 ^ n := Int.le_ediv_of_mul_le (by omega) (by omega)
    have high : a.toInt / 2 ^ n < 0 := Int.ediv_lt_of_lt_mul (by omega) (by omega)
    omega
  · next positive =>
    rw [isNegative_iff_toInt] at positive
    exact Int.ediv_eq_zero_of_lt (by omega) (by omega)

/-- The floor of a negative number, from the two's complement one. -/
theorem floor_negative {v p q l : Nat} (whole : p * q = 2 * l) (some : 0 < q) (above : l ≤ v) :
    l ≤ p * (q - 1) + v / q ∧
      (((p * (q - 1) + v / q : Nat) : Int) - 2 * l) = ((v : Int) - 2 * l) / q := by
  obtain ⟨q,rfl⟩ : ∃ r,q = r + 1 := ⟨q - 1,by omega⟩
  rw [Nat.add_sub_cancel]
  have product : p * (q + 1) = p * q + p := Nat.mul_succ p q
  constructor
  · rcases q with _ | q
    · rw [Nat.zero_add,Nat.div_one]
      exact Nat.le_trans above (Nat.le_add_left _ _)
    · have part : p * (q + 1) = p * q + p := Nat.mul_succ p q
      exact Nat.le_trans (by omega) (Nat.le_add_right _ _)
  · have int : ((2 * l : Nat) : Int) = (p : Int) * ((q + 1 : Nat) : Int) := by rw [← whole]; push_cast; rfl
    have floor := Int.sub_mul_ediv_right (v : Int) (p : Int) (c := ((q + 1 : Nat) : Int)) (by omega)
    rw [← int] at floor
    rw [show (2 * (l : Int)) = ((2 * l : Nat) : Int) by push_cast; rfl,floor]
    push_cast
    omega

theorem toInt_shrLimbs (counts : Counts shift n) : (shrLimbs a shift).toInt = a.toInt / 2 ^ n := by
  have room := limit_pos
  rw [shrLimbs]
  by_cases far : bigintBits ≤ shift
  · have far' : bigintBits ≤ n := by
      obtain rfl | ⟨-,far'⟩ := counts
      · exact far
      · exact far'
    rw [if_pos far,far_floor a far',toInt_filled]
  obtain rfl | ⟨far',-⟩ := counts
  · rw [if_neg far]
    generalize moved : (⟨shiftRightFill 64 a.words (fill a) shift,_,_⟩ : Limbs) = c
    have words : c.toNat = ofDigits (2 ^ 64) (shiftRightFill 64 a.words (fill a) shift) := by rw [← moved]; rfl
    by_cases negative : a.isNegative
    · have copies : fill a = 2 ^ 64 - 1 := if_pos negative
      have above := isNegative_iff.mp negative
      have within : shift ≤ 64 * a.words.length := by
        rw [a.size]
        exact Nat.le_of_lt (Nat.lt_of_not_le far)
      have whole : 2 ^ (64 * a.words.length - shift) * 2 ^ shift = 2 * limit := by
        rw [← pow_add,Nat.sub_add_cancel within,a.size,pow_mul,base_pow]
      obtain ⟨high,floor⟩ := floor_negative whole (Nat.two_pow_pos shift) above
      have value : c.toNat = 2 ^ (64 * a.words.length - shift) * (2 ^ shift - 1) + a.toNat / 2 ^ shift := by
        rw [words,copies,shiftRightFill_ones (by decide) a.small within]
        rfl
      rw [toInt_of_le (a := c) (by omega),value,floor,toInt_of_le above]
      push_cast
      rfl
    · have copies : fill a = 0 := if_neg negative
      have below : a.toNat < limit := Nat.lt_of_not_le fun above => negative (isNegative_iff.mpr above)
      have value : c.toNat = a.toNat / 2 ^ shift := by
        rw [words,copies,shiftRightFill_zero (by decide) a.small]
        rfl
      have shorter := Nat.div_le_self a.toNat (2 ^ shift)
      rw [toInt_of_lt (a := c) (by omega),value,toInt_of_lt below]
      push_cast
      rfl
  · exact absurd far' far

theorem shiftCount_counts (b : Limbs) : (shiftCount b).2 = b.isNegative ∧ Counts (shiftCount b).1 b.toInt.natAbs := by
  have digits := b.magnitude.small
  have magnitude : b.toInt.natAbs = ofDigits base b.magnitude.words := toNat_magnitude.symm
  have size := b.magnitude.size
  simp only [shiftCount]
  generalize b.magnitude.words = words at digits magnitude size
  obtain _ | ⟨lo,rest⟩ := words
  · cases size
  · rw [Nat.ofDigits_cons] at magnitude
    simp only [List.drop_succ_cons,List.drop_zero,List.getD_cons_zero]
    split
    · next high =>
      refine ⟨rfl,.inr ⟨Nat.le_refl _,?_⟩⟩
      have some : ofDigits base rest ≠ 0 := by
        rw [Ne,value_eq_zero (by decide)]
        simpa using high
      have scaled : base * 1 ≤ base * ofDigits base rest := Nat.mul_le_mul_left _ (Nat.pos_of_ne_zero some)
      exact Nat.le_trans (show bigintBits ≤ base by decide) (by omega)
    · next low =>
      refine ⟨rfl,.inl ?_⟩
      have none : ofDigits base rest = 0 := by
        rw [value_eq_zero (by decide)]
        simpa using low
      rw [magnitude,none,Nat.mul_zero,Nat.add_zero]

/-- `z` shifted to the left by `n` places, which is to the right for a negative count. -/
def shifted (z n : Int) : Int := if 0 ≤ n then z * 2 ^ n.natAbs else z / 2 ^ n.natAbs

/-- Shifts multiply by the power of two or take the floor of the quotient, for every count. -/
theorem shifts_exact (a b : Limbs) : Exact (jsBigintShl a b) (shifted a.toInt b.toInt) ∧
    Exact (jsBigintShr a b) (shifted a.toInt (-b.toInt)) := by
  obtain ⟨sign,counts⟩ := shiftCount_counts b
  have left := shlChecked_exact (a := a) counts
  have right := toInt_shrLimbs (a := a) counts
  rw [jsBigintShl,jsBigintShr]
  generalize shiftCount b = count at sign left right
  obtain ⟨shift,negative⟩ := count
  dsimp only at sign left right ⊢
  have sides := b.isNegative_iff_toInt
  rw [← sign] at sides
  unfold shifted
  rw [Int.natAbs_neg]
  split
  · next less =>
    rw [sides] at less
    rw [if_neg (by omega),if_pos (by omega)]
    exact ⟨.ok right,left⟩
  · next more =>
    rw [sides] at more
    rw [if_pos (by omega)]
    refine ⟨left,?_⟩
    split
    · next none =>
      have count : b.toInt.natAbs = 0 := by omega
      rw [count,pow_zero,Int.ediv_one] at right
      rw [count,pow_zero,Int.mul_one]
      exact .ok right
    · exact .ok right

end shifts

section residues

variable {bits : Nat}

theorem toNat_maskLowBits (near : bits < bigintBits) : (maskLowBits a bits).toNat = a.toNat % 2 ^ bits := by
  rw [maskLowBits,if_neg (Nat.not_le_of_lt near)]
  exact lowBits_value (by decide) a.small

/-- A number of bits within the width, and the rest of the width. -/
theorem split_bits (near : bits < bigintBits) : 2 * limit = 2 ^ bits * 2 ^ (bigintBits - bits) := by
  rw [← whole_bits,← pow_add,Nat.add_sub_cancel' (Nat.le_of_lt near)]

theorem half_le_limit (near : bits < bigintBits) : 2 ^ bits ≤ limit := by
  have whole := split_bits near
  have rest : 2 * 2 ^ (bigintBits - bits - 1) = 2 ^ (bigintBits - bits) := by
    rw [← pow_succ',Nat.sub_add_cancel (Nat.sub_pos_of_lt near)]
  rw [← rest,Nat.mul_left_comm] at whole
  have factor := Nat.le_mul_of_pos_right (2 ^ bits) (Nat.two_pow_pos (bigintBits - bits - 1))
  omega

/-- The limbs are congruent to the number they stand for. -/
theorem residue_toNat (near : bits < bigintBits) : a.toInt % 2 ^ bits = (a.toNat % 2 ^ bits : Nat) := by
  have whole : (2 * (limit : Int)) = 2 ^ bits * 2 ^ (bigintBits - bits) := by exact_mod_cast split_bits near
  rw [toInt,signed]
  split
  · push_cast
    rfl
  · rw [whole,Int.sub_mul_emod_self_left]
    push_cast
    rfl

theorem asUintN_exact (a : Limbs) (bits : UInt32) (fits : 0 ≤ a.toInt ∨ bits.toNat < bigintBits) :
    Exact (jsBigintAsUintN bits a) (a.toInt % 2 ^ bits.toNat) := by
  have range := a.toInt_inRange
  unfold InRange at range
  rw [jsBigintAsUintN]
  by_cases near : bits.toNat < bigintBits
  · have below : a.toNat % 2 ^ bits.toNat < limit :=
      Nat.lt_of_lt_of_le (Nat.mod_lt _ (Nat.two_pow_pos _)) (half_le_limit near)
    rw [residue_toNat near]
    exact .ok (by rw [toInt_of_lt (by rwa [toNat_maskLowBits near]),toNat_maskLowBits near])
  · have positive := fits.resolve_right near
    have far : bigintBits ≤ bits.toNat := Nat.le_of_not_lt near
    have power : ((2 ^ bigintBits : Nat) : Int) ≤ 2 ^ bits.toNat := by
      push_cast
      exact pow_le_pow_right₀ (by decide) far
    rw [whole_bits] at power
    rw [maskLowBits,if_pos far,Int.emod_eq_of_lt positive (by omega)]
    exact .ok rfl

/-- Past the width a negative number has no representable residue, and is returned as it is. -/
theorem asUintN_negative (bits : UInt32) (negative : a.toInt < 0) (far : bigintBits ≤ bits.toNat) :
    ¬Exact (jsBigintAsUintN bits a) (a.toInt % 2 ^ bits.toNat) := by
  intro exact
  have positive := Int.emod_nonneg a.toInt (b := 2 ^ bits.toNat) (by positivity)
  rw [jsBigintAsUintN,maskLowBits,if_pos far] at exact
  unfold Exact at exact
  split at exact
  · obtain ⟨c,same,value⟩ := exact
    cases same
    omega
  · cases exact

/-- The bit tested is the highest one kept. -/
theorem signBit_iff (some : 0 < bits) (near : bits < bigintBits) :
    (maskLowBits a bits).words.getD ((bits - 1) / 64) 0 >>> ((bits - 1) % 64) &&& 1 = 1 ↔
      2 ^ (bits - 1) ≤ a.toNat % 2 ^ bits := by
  have value := testBit_value (k := 64) (by decide) (maskLowBits a bits).small (bits - 1)
  have number : ofDigits (2 ^ 64) (maskLowBits a bits).words = a.toNat % 2 ^ bits := toNat_maskLowBits near
  have small : a.toNat % 2 ^ bits < 2 * 2 ^ (bits - 1) := by
    rw [← pow_succ',Nat.sub_add_cancel some]
    exact Nat.mod_lt _ (Nat.two_pow_pos bits)
  rw [number,Nat.testBit_eq_decide_div_mod_eq,Nat.testBit_eq_decide_div_mod_eq,decide_eq_decide] at value
  rw [Nat.and_one_is_mod,Nat.shiftRight_eq_div_pow,← value]
  generalize a.toNat % 2 ^ bits = r at small
  have half := Nat.two_pow_pos (bits - 1)
  have quotient : r / 2 ^ (bits - 1) < 2 := (Nat.div_lt_iff_lt_mul half).mpr small
  have reach : 2 ^ (bits - 1) ≤ r ↔ 1 ≤ r / 2 ^ (bits - 1) := by rw [Nat.le_div_iff_mul_le half,Nat.one_mul]
  rw [reach]
  generalize r / 2 ^ (bits - 1) = q at quotient ⊢
  omega

theorem toNat_extendSign (near : bits < bigintBits) : (extendSign (maskLowBits a bits) bits).toNat =
    2 * limit - 2 ^ bits + a.toNat % 2 ^ bits := by
  have within : bits ≤ 64 * (maskLowBits a bits).words.length := by
    rw [(maskLowBits a bits).size]
    exact Nat.le_of_lt near
  have number : ofDigits (2 ^ 64) (maskLowBits a bits).words = a.toNat % 2 ^ bits := toNat_maskLowBits near
  have value := setFrom_value (by decide) (maskLowBits a bits).small within
    (by rw [number]; exact Nat.mod_lt _ (Nat.two_pow_pos bits))
  have whole : 2 ^ bits * 2 ^ (64 * (maskLowBits a bits).words.length - bits) = 2 * limit := by
    rw [(maskLowBits a bits).size]
    exact (split_bits near).symm
  rw [number,Nat.mul_sub,whole,Nat.mul_one] at value
  exact value

theorem asIntN_exact (a : Limbs) (bits : UInt32) :
    Exact (jsBigintAsIntN bits a) (a.toInt.bmod (2 ^ bits.toNat)) := by
  have room := limit_pos
  rw [jsBigintAsIntN]
  generalize bits.toNat = bits
  by_cases none : bits = 0
  · rw [if_pos none,none,pow_zero,Int.bmod_one]
    exact .ok toInt_zero
  rw [if_neg none]
  by_cases far : bigintBits ≤ bits
  · have range := a.toInt_inRange
    have power : 2 ^ bigintBits ≤ 2 ^ bits := Nat.pow_le_pow_right (by decide) far
    rw [whole_bits] at power
    unfold InRange at range
    rw [if_pos far,Int.bmod_eq_of_le_mul_two (by omega) (by omega)]
    exact .ok rfl
  · have near := Nat.lt_of_not_le far
    have some := Nat.pos_of_ne_zero none
    have residue := residue_toNat (a := a) near
    have below := Nat.mod_lt a.toNat (Nat.two_pow_pos bits)
    have half := half_le_limit near
    have double : 2 * 2 ^ (bits - 1) = 2 ^ bits := by rw [← pow_succ',Nat.sub_add_cancel some]
    rw [if_neg far,Int.bmod_def]
    push_cast
    rw [residue]
    have cut : ((a.toNat % 2 ^ bits : Nat) : Int) < (2 ^ bits + 1) / 2 ↔ ¬2 ^ (bits - 1) ≤ a.toNat % 2 ^ bits := by
      have cast : ((2 ^ bits : Nat) : Int) = 2 ^ bits := by push_cast; rfl
      rw [← cast]
      omega
    by_cases sign : 2 ^ (bits - 1) ≤ a.toNat % 2 ^ bits
    · rw [if_pos ((signBit_iff some near).mpr sign),if_neg fun less => cut.mp less sign]
      have value := toNat_extendSign (a := a) near
      refine .ok ?_
      rw [toInt_of_le (by omega),value]
      have cast : ((2 ^ bits : Nat) : Int) = 2 ^ bits := by push_cast; rfl
      rw [← cast]
      omega
    · rw [if_neg fun set => sign ((signBit_iff some near).mp set),if_pos (cut.mpr sign)]
      have value := toNat_maskLowBits (a := a) near
      exact .ok (by rw [toInt_of_lt (by omega),value])

/-- `as_uint_n` and `as_int_n` give the unsigned and the signed residue if and only if the
number is not negative or the count stays below the width. -/
theorem residues_exact_iff (a : Limbs) (bits : UInt32) :
    Exact (jsBigintAsUintN bits a) (a.toInt % 2 ^ bits.toNat) ∧
        Exact (jsBigintAsIntN bits a) (a.toInt.bmod (2 ^ bits.toNat)) ↔
      0 ≤ a.toInt ∨ bits.toNat < bigintBits := by
  constructor
  · rintro ⟨unsigned,-⟩
    by_contra neither
    obtain ⟨negative,far⟩ := not_or.mp neither
    exact asUintN_negative bits (by omega) (Nat.le_of_not_lt far) unsigned
  · intro fits
    exact ⟨asUintN_exact a bits fits,asIntN_exact a bits⟩

/-- `BigInt.asUintN(1024, -2n ** 1023n)` is negative. -/
theorem asUintN_least : ¬Exact (jsBigintAsUintN 1024 least) (least.toInt % 2 ^ (1024 : UInt32).toNat) := by
  refine asUintN_negative 1024 ?_ (by decide)
  have room := limit_pos
  rw [toInt_least]
  omega

end residues

end Perry.Runtime.BigInt
