import Perry.Runtime.BigIntArith

/-! Division and remainder of `bigint/arith.rs`: the unsigned division of two magnitudes
in its three tiers, and the signs put back around it. -/
namespace Perry.Runtime.BigInt

open Perry.Words
open Nat (ofDigits)
open Limbs

variable {a b : Limbs}

/-- `u64::is_power_of_two`. -/
def isPowerOfTwo (w : Nat) : Bool := w == 1 <<< w.log2

/-- The tier for a divisor with one set bit, at `k`: the dividend shifted by `k`, and its
low `k` bits. -/
def divPowerOfTwo (a : Limbs) (k : Nat) : Limbs × Limbs :=
  (⟨shiftRight 64 a.words k,by rw [shiftRight_length,a.size],shiftRight_digits a.small⟩,
    ⟨lowBits 64 a.words k,by rw [lowBits_length,a.size],lowBits_digits a.small⟩)

/-- The tier for a divisor of one limb: short division from limb `top` down. -/
def divSingleLimb (a : Limbs) (d top : Nat) : Limbs × Limbs :=
  let divided := divSmall base d (a.words.take (top + 1))
  (ofWords divided.1,ofWords [divided.2])

/-- The general tier: a bit at a time, from the dividend's highest set bit. -/
def divBitwise (a b : Limbs) (topBit : Nat) : Limbs × Limbs :=
  have shaped := divideBits_shaped (by decide) a.small b.small b.size (topBit + 1)
    (.start 64 bigintLimbs)
  let divided := divideBits 64 a.words b.words (topBit + 1)
    (List.replicate bigintLimbs 0,List.replicate bigintLimbs 0)
  (⟨divided.1,shaped.quotientSize,shaped.quotientDigits⟩,
    ⟨divided.2,shaped.remainderSize,shaped.remainderDigits⟩)

/-- `unsigned_div_limbs`. -/
def unsignedDivLimbs (a b : Limbs) : Limbs × Limbs :=
  match highestSetBit 64 a.words,highestSetBit 64 b.words with
  | none,_ => (zero,zero)
  | some _,none => (zero,zero)
  | some aTopBit,some bTopBit =>
    if aTopBit < bTopBit then (zero,a)
    else
      let bTopLimb := bTopBit / 64
      if isPowerOfTwo (b.words.getD bTopLimb 0) && (b.words.take bTopLimb).all (· == 0) then
        divPowerOfTwo a bTopBit
      else if bTopLimb = 0 then divSingleLimb a (b.words.getD 0 0) (aTopBit / 64)
      else divBitwise a b aTopBit

/-- The sixteen-limb path of `js_bigint_div`. -/
def divSlow (a b : Limbs) : Limbs :=
  let quotient := (unsignedDivLimbs a.magnitude b.magnitude).1
  if a.isNegative ≠ b.isNegative ∧ quotient ≠ zero then negateLimbs quotient else quotient

/-- `js_bigint_div`. -/
def jsBigintDiv (a b : Limbs) : Outcome :=
  if b = zero then throwBigintDivisionByZero
  else
    match fitsInI64 a,fitsInI64 b with
    | some av,some bv => if bv ≠ 0 then .ok (writeI128 (av.tdiv bv)) else .ok (divSlow a b)
    | _,_ => .ok (divSlow a b)

/-- `%` on two `i64`: the host panics where the quotient overflows. -/
def remI64 (av bv : Int) : Except Error Int :=
  if av = -2 ^ 63 ∧ bv = -1 then .error .panic else .ok (av.tmod bv)

/-- The sixteen-limb path of `js_bigint_mod`. -/
def modSlow (a b : Limbs) : Limbs :=
  let remainder := (unsignedDivLimbs a.magnitude b.magnitude).2
  if a.isNegative ∧ remainder ≠ zero then negateLimbs remainder else remainder

/-- `js_bigint_mod`. -/
def jsBigintMod (a b : Limbs) : Outcome :=
  if b = zero then throwBigintDivisionByZero
  else
    match fitsInI64 a,fitsInI64 b with
    | some av,some bv =>
      if bv ≠ 0 then (remI64 av bv).map writeI64 else .ok (modSlow a b)
    | _,_ => .ok (modSlow a b)

theorem divPowerOfTwo_value (k : Nat) :
    (divPowerOfTwo a k).1.toNat = a.toNat / 2 ^ k ∧ (divPowerOfTwo a k).2.toNat = a.toNat % 2 ^ k :=
  ⟨shiftRight_value (by decide) a.small,lowBits_value (by decide) a.small⟩

theorem divSingleLimb_value {d top : Nat} (positive : 0 < d) (word : d < base)
    (above : a.toNat < base ^ (top + 1)) (inside : top + 1 ≤ bigintLimbs) :
    (divSingleLimb a d top).1.toNat = a.toNat / d ∧
      (divSingleLimb a d top).2.toNat = a.toNat % d := by
  have whole : ofDigits base (a.words.take (top + 1)) = a.toNat := by
    rw [← Nat.ofDigits_mod_pow_eq_ofDigits_take _ (by decide) _ a.small]
    exact Nat.mod_eq_of_lt above
  have digits := a.small.take (top + 1)
  have last : Digits base [(divSmall base d (a.words.take (top + 1))).2] :=
    digits_cons.mpr ⟨Nat.lt_trans (divSmall_rem_lt positive) word,.nil⟩
  have length : (divSmall base d (a.words.take (top + 1))).1.length ≤ bigintLimbs := by
    rw [divSmall_length,List.length_take]
    omega
  rw [divSingleLimb]
  constructor
  · rw [toNat_ofWords (divSmall_digits positive digits) length,divSmall_quotient positive,whole]
  · rw [toNat_ofWords last (Nat.le_of_ble_eq_true rfl),Nat.ofDigits_singleton,
      divSmall_remainder positive,whole]

theorem divBitwise_value {topBit : Nat} (positive : 0 < b.toNat) (room : b.toNat ≤ limit)
    (above : a.toNat < 2 ^ (topBit + 1)) (inside : topBit + 1 ≤ 64 * bigintLimbs) :
    (divBitwise a b topBit).1.toNat = a.toNat / b.toNat ∧
      (divBitwise a b topBit).2.toNat = a.toNat % b.toNat := by
  have width : 2 * ofDigits (2 ^ 64) b.words ≤ (2 ^ 64) ^ bigintLimbs := by
    rw [base_pow]
    exact Nat.mul_le_mul_left 2 room
  have divided := divideBits_divided (by decide) a.small b.small b.size positive width inside
    (.start above)
  have quotient := divided.quotient
  have remainder := divided.remainder
  rw [pow_zero,Nat.div_one] at remainder
  rw [pow_zero,Nat.div_one,Nat.one_mul] at quotient
  exact ⟨quotient,remainder⟩

theorem highestSetBit_words (some : a.toNat ≠ 0) :
    highestSetBit 64 a.words = .some a.toNat.log2 := by
  rw [highestSetBit_value a.small]
  exact if_neg some

/-- The highest set bit bounds the number from both sides and lies in the limbs. -/
theorem log2_spec (some : a.toNat ≠ 0) :
    2 ^ a.toNat.log2 ≤ a.toNat ∧ a.toNat < 2 ^ (a.toNat.log2 + 1) ∧
      a.toNat.log2 < 64 * bigintLimbs := by
  have low := Nat.log2_self_le some
  refine ⟨low,Nat.lt_log2_self,?_⟩
  have bound := a.toNat_lt
  rw [← base_pow,← pow_mul] at bound
  exact (Nat.pow_lt_pow_iff_right (by decide)).mp (Nat.lt_of_le_of_lt low bound)

theorem lt_base_pow (some : a.toNat ≠ 0) : a.toNat < base ^ (a.toNat.log2 / 64 + 1) := by
  obtain ⟨-,high,-⟩ := log2_spec some
  rw [← pow_mul]
  apply Nat.lt_of_lt_of_le high
  apply Nat.pow_le_pow_right (by decide)
  omega

/-- A number whose top limb is a power of two, with nothing below it, is one. -/
theorem powerOfTwo_value (some : b.toNat ≠ 0)
    (single : isPowerOfTwo (b.words.getD (b.toNat.log2 / 64) 0))
    (below : (b.words.take (b.toNat.log2 / 64)).all (· == 0)) : b.toNat = 2 ^ b.toNat.log2 := by
  have above := lt_base_pow some
  generalize b.toNat.log2 / 64 = n at *
  have high : b.toNat / base ^ n = b.words.getD n 0 := by
    rw [← value_digit (by decide) b.small n,← Limbs.toNat]
    symm
    apply Nat.mod_eq_of_lt
    apply Nat.div_lt_of_lt_mul
    rwa [← pow_succ]
  have low : b.toNat % base ^ n = 0 := by
    rw [Limbs.toNat,Nat.ofDigits_mod_pow_eq_ofDigits_take n (by decide) _ b.small,value_eq_zero (by decide)]
    simpa using below
  have value := Nat.div_add_mod b.toNat (base ^ n)
  rw [isPowerOfTwo,beq_iff_eq,Nat.one_shiftLeft] at single
  rw [high,low,single,Nat.add_zero,← pow_mul,← pow_add] at value
  rw [← value,Nat.log2_two_pow]

/-- The three tiers all give the quotient and the remainder. -/
theorem unsignedDivLimbs_value (positive : b.toNat ≠ 0) (room : b.toNat ≤ limit) :
    (unsignedDivLimbs a b).1.toNat = a.toNat / b.toNat ∧
      (unsignedDivLimbs a b).2.toNat = a.toNat % b.toNat := by
  rw [unsignedDivLimbs,highestSetBit_words positive]
  by_cases empty : a.toNat = 0
  · rw [highestSetBit_value a.small,if_pos (by exact empty),empty]
    simp
  · obtain ⟨aLow,aHigh,aInside⟩ := log2_spec empty
    obtain ⟨bLow,bHigh,bInside⟩ := log2_spec positive
    rw [highestSetBit_words empty]
    dsimp only
    split
    · rename_i less
      have smaller : a.toNat < b.toNat :=
        Nat.lt_of_lt_of_le aHigh (Nat.le_trans (Nat.pow_le_pow_right (by decide) less) bLow)
      rw [Nat.div_eq_of_lt smaller,Nat.mod_eq_of_lt smaller]
      exact ⟨toNat_zero,rfl⟩
    · split
      · rename_i power
        rw [Bool.and_eq_true] at power
        have value := powerOfTwo_value positive power.1 power.2
        have tier := @divPowerOfTwo_value a b.toNat.log2
        rwa [← value] at tier
      · split
        · rename_i single
          have word : b.toNat < base := by
            have above := lt_base_pow positive
            rwa [single,Nat.zero_add,pow_one] at above
          have value : b.words.getD 0 0 = b.toNat := by
            rw [← value_digit (by decide) b.small 0,pow_zero,Nat.div_one]
            exact Nat.mod_eq_of_lt word
          rw [value]
          exact divSingleLimb_value (Nat.pos_of_ne_zero positive) word (lt_base_pow empty)
            (by omega)
        · exact divBitwise_value (Nat.pos_of_ne_zero positive) room aHigh aInside

theorem magnitude_ne_zero (some : b ≠ zero) : b.magnitude.toNat ≠ 0 := by
  rw [toNat_magnitude,Int.natAbs_ne_zero]
  exact fun empty => some (toInt_eq_zero_iff.mp empty)

theorem divSlow_toInt (some : b ≠ zero) (inside : InRange (a.toInt.tdiv b.toInt)) :
    (divSlow a b).toInt = a.toInt.tdiv b.toInt := by
  have left := @isNegative_iff_toInt a
  have right := @isNegative_iff_toInt b
  have quotient := (@unsignedDivLimbs_value a.magnitude _ (magnitude_ne_zero some)
    toNat_magnitude_le).1
  rw [toNat_magnitude,toNat_magnitude] at quotient
  apply toInt_restoreSign _ inside
  · intro differ
    rw [Ne,Bool.eq_iff_iff,left,right] at differ
    by_cases ha : a.toInt < 0
    · have flipped := @Int.tdiv_nonneg (-a.toInt) b.toInt (by omega) (by omega)
      rw [Int.neg_tdiv] at flipped
      omega
    · exact Int.tdiv_nonpos_of_nonneg_of_nonpos (by omega) (by omega)
  · intro same
    rw [Ne,not_not,Bool.eq_iff_iff,left,right] at same
    by_cases ha : a.toInt < 0
    · exact Int.tdiv_nonneg_of_nonpos_of_nonpos (by omega) (by omega)
    · exact Int.tdiv_nonneg (by omega) (by omega)
  · rw [quotient,Int.natAbs_tdiv]
    rfl

theorem tmod_inRange (some : b ≠ zero) : InRange (a.toInt.tmod b.toInt) := by
  have magnitude := Int.natAbs_tmod a.toInt b.toInt
  have below := Nat.mod_lt a.toInt.natAbs (Nat.pos_of_ne_zero (magnitude_ne_zero some))
  have room := @toNat_magnitude_le b
  rw [toNat_magnitude] at below room
  unfold InRange
  omega

theorem modSlow_toInt (some : b ≠ zero) : (modSlow a b).toInt = a.toInt.tmod b.toInt := by
  have left := @isNegative_iff_toInt a
  have remainder := (@unsignedDivLimbs_value a.magnitude _ (magnitude_ne_zero some)
    toNat_magnitude_le).2
  rw [toNat_magnitude,toNat_magnitude] at remainder
  apply toInt_restoreSign _ (tmod_inRange some)
  · intro negative
    rw [left] at negative
    have flipped := @Int.tmod_nonneg (-a.toInt) b.toInt (by omega)
    rw [Int.neg_tmod] at flipped
    omega
  · intro positive
    rw [left] at positive
    exact Int.tmod_nonneg _ (by omega)
  · rw [remainder,Int.natAbs_tmod]

/-- Truncated division: what `/` and `%` promise for one dividend and one divisor. -/
def TruncatedDivision (a b : Limbs) : Prop :=
  if b.toInt = 0 then
    jsBigintDiv a b = throwBigintDivisionByZero ∧ jsBigintMod a b = throwBigintDivisionByZero
  else
    ∃ q r : Int,a.toInt = q * b.toInt + r ∧ r.natAbs < b.toInt.natAbs ∧
      (r = 0 ∨ r.sign = a.toInt.sign) ∧ Exact (jsBigintDiv a b) q ∧
      ∃ c,jsBigintMod a b = .ok c ∧ c.toInt = r

theorem jsBigintDiv_toInt (some : b ≠ zero) :
    ∃ c,jsBigintDiv a b = .ok c ∧
      (InRange (a.toInt.tdiv b.toInt) → c.toInt = a.toInt.tdiv b.toInt) := by
  rw [jsBigintDiv,if_neg some]
  split
  · rename_i av bv left right
    obtain ⟨left,leftLow,leftHigh⟩ := fitsInI64_some left
    obtain ⟨right,rightLow,rightHigh⟩ := fitsInI64_some right
    have quotient := Int.natAbs_tdiv_le_natAbs av bv
    split
    · refine ⟨_,rfl,fun _ => ?_⟩
      rw [left,right]
      exact toInt_writeI128 (by omega) (by omega)
    · exact ⟨_,rfl,divSlow_toInt some⟩
  · exact ⟨_,rfl,divSlow_toInt some⟩

theorem jsBigintMod_toInt (some : b ≠ zero) (fits : ¬ (a.toInt = -2 ^ 63 ∧ b.toInt = -1)) :
    ∃ c,jsBigintMod a b = .ok c ∧ c.toInt = a.toInt.tmod b.toInt := by
  rw [jsBigintMod,if_neg some]
  split
  · rename_i av bv left right
    obtain ⟨left,leftLow,leftHigh⟩ := fitsInI64_some left
    obtain ⟨right,rightLow,rightHigh⟩ := fitsInI64_some right
    rw [left,right] at fits
    split
    · refine ⟨writeI64 (av.tmod bv),by rw [remI64,if_neg fits]; rfl,?_⟩
      have remainder := Int.natAbs_tmod av bv
      have below := Nat.mod_lt av.natAbs (Int.natAbs_pos.mpr ‹bv ≠ 0›)
      rw [left,right]
      exact toInt_writeI64 (by omega) (by omega)
    · exact ⟨_,rfl,modSlow_toInt some⟩
  · exact ⟨_,rfl,modSlow_toInt some⟩

/-- The quotient leaves the range at one pair only. -/
theorem tdiv_inRange_iff (some : b ≠ zero) :
    InRange (a.toInt.tdiv b.toInt) ↔ ¬ (b.toInt = -1 ∧ a.toInt = -limit) := by
  have range := a.toInt_inRange
  have divisor : b.toInt ≠ 0 := fun empty => some (toInt_eq_zero_iff.mp empty)
  have least := limit_pos
  unfold InRange at *
  constructor
  · rintro inside ⟨unit,low⟩
    rw [unit,low,Int.tdiv_neg,Int.tdiv_one] at inside
    omega
  · intro other
    have magnitude := Int.natAbs_tdiv a.toInt b.toInt
    change _ = a.toInt.natAbs / b.toInt.natAbs at magnitude
    have smaller := Nat.div_le_self a.toInt.natAbs b.toInt.natAbs
    by_cases small : b.toInt.natAbs = 1
    · obtain one | unit : b.toInt = 1 ∨ b.toInt = -1 := by omega
      · rw [one,Int.tdiv_one]
        exact range
      · rw [unit,Int.tdiv_neg,Int.tdiv_one]
        have above : a.toInt ≠ -limit := fun low => other ⟨unit,low⟩
        omega
    · have halved : a.toInt.natAbs / b.toInt.natAbs ≤ a.toInt.natAbs / 2 :=
        Nat.div_le_div_left (by omega) (by decide)
      omega

/-- The remainder operator meets a host panic at one pair only. -/
theorem jsBigintMod_panics (low : a.toInt = -2 ^ 63) (unit : b.toInt = -1) :
    jsBigintMod a b = .error .panic := by
  obtain rfl : a = writeI64 (-2 ^ 63) :=
    toInt_inj (low.trans (toInt_writeI64 (by decide) (by decide)).symm)
  obtain rfl : b = writeI64 (-1) :=
    toInt_inj (unit.trans (toInt_writeI64 (by decide) (by decide)).symm)
  decide +kernel

/-- The only quotient of the least value by `-1` is `2^1023`, and an overflow was due. -/
theorem truncatedDivision_least (low : a.toInt = -limit) (unit : b.toInt = -1) :
    ¬ TruncatedDivision a b := by
  have some : b ≠ zero := by
    rintro rfl
    rw [toInt_zero] at unit
    omega
  obtain ⟨quotient,divided,-⟩ := @jsBigintDiv_toInt a b some
  unfold TruncatedDivision
  rw [if_neg (by omega)]
  rintro ⟨q,r,split,below,-,exact,-⟩
  have outside : ¬ InRange q := by
    rw [unit,low] at split
    rw [unit] at below
    unfold InRange
    omega
  rw [Exact,if_neg outside,divided] at exact
  cases exact

theorem truncatedDivision_hostLeast (low : a.toInt = -2 ^ 63) (unit : b.toInt = -1) :
    ¬ TruncatedDivision a b := by
  unfold TruncatedDivision
  rw [if_neg (by omega)]
  rintro ⟨q,r,-,-,-,-,c,mod,-⟩
  rw [jsBigintMod_panics low unit] at mod
  cases mod

/-- Division is truncated division, except that `-2^1023 / -1` wraps instead of raising the
overflow error and `-2^63 % -1` panics in the host path. -/
theorem truncatedDivision_iff (a b : Limbs) :
    TruncatedDivision a b ↔ ¬ (b.toInt = -1 ∧ (a.toInt = -limit ∨ a.toInt = -2 ^ 63)) := by
  constructor
  · rintro correct ⟨unit,low | low⟩
    · exact truncatedDivision_least low unit correct
    · exact truncatedDivision_hostLeast low unit correct
  · intro other
    unfold TruncatedDivision
    by_cases empty : b.toInt = 0
    · obtain rfl := toInt_eq_zero_iff.mp empty
      rw [if_pos empty]
      simp [jsBigintDiv,jsBigintMod]
    · have some : b ≠ zero := fun zero => empty (toInt_eq_zero_iff.mpr zero)
      obtain ⟨quotient,divided,value⟩ := @jsBigintDiv_toInt a b some
      rw [if_neg empty]
      have inside := (@tdiv_inRange_iff a b some).mpr fun least => other ⟨least.1,.inl least.2⟩
      obtain ⟨remainder,mod,rest⟩ := jsBigintMod_toInt some fun low => other ⟨low.2,.inr low.1⟩
      refine ⟨_,_,(Int.tdiv_mul_add_tmod a.toInt b.toInt).symm,?_,?_,?_,remainder,mod,rest⟩
      · rw [Int.natAbs_tmod]
        exact Nat.mod_lt _ (Int.natAbs_pos.mpr empty)
      · have sign := Int.sign_tmod a.toInt b.toInt
        split at sign
        · exact .inl (Int.sign_eq_zero_iff_zero.mp sign)
        · exact .inr sign
      · rw [divided]
        exact .ok (value inside)

/-- `-2^1023 / -1` gives `-2^1023` back, and `-2^63 % -1` panics. -/
theorem divisionByMinusOne_wraps :
    jsBigintDiv least (writeI64 (-1)) = .ok least ∧ ¬ TruncatedDivision least (writeI64 (-1)) ∧
      jsBigintMod (writeI64 (-2 ^ 63)) (writeI64 (-1)) = .error .panic ∧
      ¬ TruncatedDivision (writeI64 (-2 ^ 63)) (writeI64 (-1)) := by
  have unit : (writeI64 (-1)).toInt = -1 := toInt_writeI64 (by decide) (by decide)
  have low : (writeI64 (-2 ^ 63)).toInt = -2 ^ 63 := toInt_writeI64 (by decide) (by decide)
  exact ⟨by decide +kernel,truncatedDivision_least toInt_least unit,jsBigintMod_panics low unit,
    truncatedDivision_hostLeast low unit⟩

end Perry.Runtime.BigInt
