import Perry.Runtime.BigInt

/-! Negation, addition, subtraction and multiplication of `bigint/arith.rs`: each has a
path through a host `i64` and one over the sixteen limbs, and both give the exact integer
or the overflow error. -/
namespace Perry.Runtime.BigInt

open Perry.Words
open Nat (ofDigits)
open Limbs

variable {a b : Limbs} {z : Int}

/-- The outcome is the integer where it is representable, and the overflow error where
it is not. -/
def Exact (outcome : Outcome) (z : Int) : Prop :=
  if InRange z then ∃ c,outcome = .ok c ∧ c.toInt = z else outcome = throwBigintOverflow

theorem Exact.ok {c : Limbs} (value : c.toInt = z) : Exact (.ok c) z := by
  rw [Exact,if_pos (value ▸ c.toInt_inRange)]
  exact ⟨c,rfl,value⟩

theorem Exact.overflow (outside : ¬ InRange z) : Exact throwBigintOverflow z := by
  rw [Exact,if_neg outside]

theorem Exact.checked {wrapped : Prop} [Decidable wrapped] {c : Limbs}
    (outside : wrapped → ¬ InRange z) (value : ¬ wrapped → c.toInt = z) :
    Exact (if wrapped then throwBigintOverflow else .ok c) z := by
  split
  · rename_i h
    exact .overflow (outside h)
  · rename_i h
    exact .ok (value h)

theorem Exact.unique {left right : Outcome} (first : Exact left z) (second : Exact right z) :
    left = right := by
  unfold Exact at first second
  split at first
  · rename_i inside
    rw [if_pos inside] at second
    obtain ⟨c,rfl,value⟩ := first
    obtain ⟨d,rfl,same⟩ := second
    rw [toInt_inj (value.trans same.symm)]
  · rename_i outside
    rw [if_neg outside] at second
    rw [first,second]

/-- `js_bigint_neg`. -/
def jsBigintNeg (a : Limbs) : Outcome :=
  let result := negateLimbs a
  if result = a ∧ a ≠ zero then throwBigintOverflow else .ok result

/-- The carry chain of `js_bigint_add`. -/
def addLimbs (a b : Limbs) : Limbs :=
  ⟨(addCarry base a.words b.words 0).1,
    by rw [addCarry_length (a.size.trans b.size.symm),a.size],addCarry_digits (by decide)⟩

/-- The sixteen-limb path of `js_bigint_add`. -/
def addSlow (a b : Limbs) : Outcome :=
  let result := addLimbs a b
  if a.isNegative = b.isNegative ∧ result.isNegative ≠ a.isNegative then throwBigintOverflow
  else .ok result

/-- `js_bigint_add`. -/
def jsBigintAdd (a b : Limbs) : Outcome :=
  match fitsInI64 a,fitsInI64 b with
  | some av,some bv => .ok (writeI128 (av + bv))
  | _,_ => addSlow a b

/-- `subtract_limbs`, and the borrow chain of `js_bigint_sub`. -/
def subtractLimbs (a b : Limbs) : Limbs :=
  ⟨(subBorrow base a.words b.words 0).1,
    by rw [subBorrow_length (a.size.trans b.size.symm),a.size],
    subBorrow_digits a.small b.small (Nat.zero_le 1)⟩

/-- The sixteen-limb path of `js_bigint_sub`. -/
def subSlow (a b : Limbs) : Outcome :=
  let result := subtractLimbs a b
  if a.isNegative ≠ b.isNegative ∧ result.isNegative ≠ a.isNegative then throwBigintOverflow
  else .ok result

/-- `js_bigint_sub`. -/
def jsBigintSub (a b : Limbs) : Outcome :=
  match fitsInI64 a,fitsInI64 b with
  | some av,some bv => .ok (writeI128 (av - bv))
  | _,_ => subSlow a b

/-- The walk of `effective_limb_len` down from limb `n`. -/
def effectiveLimbLenBelow (words : List Nat) (fill : Nat) : Nat → Nat
  | 0 => 1
  | i + 1 =>
    if words.getD i 0 ≠ fill then min (i + 2) bigintLimbs
    else effectiveLimbLenBelow words fill i

/-- `effective_limb_len`. -/
def effectiveLimbLen (a : Limbs) : Nat :=
  let fill := if a.words.getD (bigintLimbs - 1) 0 >>> 63 = 1 then base - 1 else 0
  effectiveLimbLenBelow a.words fill bigintLimbs

/-- The magnitudes' product of `mul_limbs_checked`, in twice as many limbs. -/
def mulWide (a b : Limbs) : List Nat :=
  mulRows base (a.words.take (effectiveLimbLen a)) (b.words.take (effectiveLimbLen b))
    (List.replicate (2 * bigintLimbs) 0)

theorem mulWide_length : (mulWide a b).length = 2 * bigintLimbs := by
  rw [mulWide,mulRows_length,List.length_replicate]

theorem mulWide_digits : Digits base (mulWide a b) :=
  mulRows_digits (by decide) (.replicate _ (by decide))

/-- `mul_limbs_checked`. -/
def mulLimbsChecked (a b : Limbs) : Outcome :=
  let negative := a.isNegative != b.isNegative
  let wide := mulWide a.magnitude b.magnitude
  if magnitudeFits1024 wide negative then
    let result : Limbs := ⟨wide.take bigintLimbs,by rw [List.length_take,mulWide_length]; rfl,
      mulWide_digits.take _⟩
    .ok (if negative then negateLimbs result else result)
  else throwBigintOverflow

/-- `js_bigint_mul`. -/
def jsBigintMul (a b : Limbs) : Outcome :=
  match fitsInI64 a,fitsInI64 b with
  | some av,some bv => .ok (writeI128 (av * bv))
  | _,_ => mulLimbsChecked a b

theorem jsBigintNeg_exact : Exact (jsBigintNeg a) (-a.toInt) := by
  have range := a.toInt_inRange
  have positive := limit_pos
  unfold InRange at range
  rw [jsBigintNeg]
  by_cases least : a.toInt = -limit
  · have fixed : negateLimbs a = a := by
      apply toNat_inj
      have bound := a.toNat_lt
      rw [toNat_negateLimbs,mod_two_half (by omega)]
      unfold toInt signed at least
      split at least
      all_goals split
      all_goals omega
    have some : a ≠ zero := by
      rintro rfl
      rw [toInt_zero] at least
      omega
    rw [if_pos ⟨fixed,some⟩]
    apply Exact.overflow
    unfold InRange
    omega
  · have value := toInt_negateLimbs least
    have free : ¬ (negateLimbs a = a ∧ a ≠ zero) := by
      rintro ⟨fixed,some⟩
      rw [fixed] at value
      exact some (toInt_eq_zero_iff.mp (by omega))
    rw [if_neg free]
    exact .ok value

theorem toNat_addLimbs : (addLimbs a b).toNat = (a.toNat + b.toNat) % (2 * limit) := by
  have value := addCarry_value (B := base) (c := 0) (a.size.trans b.size.symm)
  rw [a.size,base_pow,Nat.add_zero] at value
  have bound := (addLimbs a b).toNat_lt
  have total : a.toNat + b.toNat = (addLimbs a b).toNat +
      2 * limit * (addCarry base a.words b.words 0).2 := value.symm
  rw [total,Nat.add_mul_mod_self_left,Nat.mod_eq_of_lt bound]

theorem toNat_subtractLimbs :
    (subtractLimbs a b).toNat = (2 * limit + a.toNat - b.toNat) % (2 * limit) := by
  have value := subBorrow_value (c := 0) (a.size.trans b.size.symm) b.small (Nat.zero_le 1)
  rw [a.size,base_pow,Nat.add_zero] at value
  have bound := (subtractLimbs a b).toNat_lt
  have left := a.toNat_lt
  have right := b.toNat_lt
  change (subtractLimbs a b).toNat + b.toNat =
    a.toNat + 2 * limit * (subBorrow base a.words b.words 0).2 at value
  rw [mod_two_half (by omega)]
  generalize (subBorrow base a.words b.words 0).2 = borrow at value
  obtain _ | _ | borrow := borrow
  · split <;> omega
  · split <;> omega
  · have wrapped : 2 * limit * 2 ≤ 2 * limit * (borrow + 1 + 1) :=
      Nat.mul_le_mul_left (2 * limit) (Nat.le_add_left 2 borrow)
    omega

theorem isNegative_eq_iff :
    a.isNegative = b.isNegative ↔ (limit ≤ a.toNat ↔ limit ≤ b.toNat) := by
  rw [Bool.eq_iff_iff,isNegative_iff,isNegative_iff]

theorem addSlow_exact : Exact (addSlow a b) (a.toInt + b.toInt) := by
  have left := a.toNat_lt
  have right := b.toNat_lt
  have sum : (addLimbs a b).toNat = _ := toNat_addLimbs
  rw [mod_two_half (by omega)] at sum
  apply Exact.checked
  · intro wrapped
    rw [Ne,isNegative_eq_iff,isNegative_eq_iff,sum] at wrapped
    unfold InRange toInt signed
    split_ifs at * <;> omega
  · intro kept
    rw [Ne,isNegative_eq_iff,isNegative_eq_iff,sum] at kept
    unfold toInt signed
    rw [sum]
    split_ifs at * <;> omega

theorem subSlow_exact : Exact (subSlow a b) (a.toInt - b.toInt) := by
  have left := a.toNat_lt
  have right := b.toNat_lt
  have difference : (subtractLimbs a b).toNat = _ := toNat_subtractLimbs
  rw [mod_two_half (by omega)] at difference
  apply Exact.checked
  · intro wrapped
    rw [Ne,Ne,isNegative_eq_iff,isNegative_eq_iff,difference] at wrapped
    unfold InRange toInt signed
    split_ifs at * <;> omega
  · intro kept
    rw [Ne,Ne,isNegative_eq_iff,isNegative_eq_iff,difference] at kept
    unfold toInt signed
    rw [difference]
    split_ifs at * <;> omega

theorem effectiveLimbLenBelow_value (n : Nat) (above : ∀ i,n ≤ i → a.words.getD i 0 = 0) :
    ofDigits base (a.words.take (effectiveLimbLenBelow a.words 0 n)) = a.toNat := by
  induction n with
  | zero =>
    apply value_take
    exact fun i _ => above i (Nat.zero_le i)
  | succ n ih =>
    rw [effectiveLimbLenBelow]
    split
    · apply value_take
      intro i le
      by_cases inside : i < bigintLimbs
      · exact above i (by omega)
      · exact List.getD_eq_default _ _ (by rw [a.size]; omega)
    · rename_i clear
      apply ih
      intro i le
      obtain rfl | next := Nat.eq_or_lt_of_le le
      · exact not_not.mp clear
      · exact above i next

/-- A magnitude's limbs at and above its effective length are zero: only `2^1023` has its
highest bit set, and there the walk stops at once. -/
theorem effectiveLimbLen_value (small : a.toNat ≤ limit) :
    ofDigits base (a.words.take (effectiveLimbLen a)) = a.toNat := by
  have positive := limit_pos
  have top := top_bit a.small a.size
  change _ = a.toNat / limit at top
  rw [effectiveLimbLen]
  split
  · rename_i set
    have least : a.toNat = limit := by
      rw [set] at top
      have := Nat.div_mul_le_self a.toNat limit
      rw [← top] at this
      omega
    have none : ofDigits base (a.words.drop bigintLimbs) = 0 := by
      rw [List.drop_eq_nil_of_le (Nat.le_of_eq a.size)]
      rfl
    have high : a.words.getD 15 0 = 1 <<< 63 :=
      ((magnitude_eq_limit_iff a.small (Nat.le_of_eq a.size.symm) none).mp least).1
    rw [effectiveLimbLenBelow,if_pos (by rw [high]; decide)]
    apply value_take
    intro i le
    exact List.getD_eq_default _ _ (by rw [a.size]; exact le)
  · apply effectiveLimbLenBelow_value
    intro i le
    exact List.getD_eq_default _ _ (by rw [a.size]; omega)

theorem mulWide_value (left : a.toNat ≤ limit) (right : b.toNat ≤ limit) :
    ofDigits base (mulWide a b) = a.toNat * b.toNat := by
  have positive := limit_pos
  have lengths (c : Limbs) : (c.words.take (effectiveLimbLen c)).length ≤ bigintLimbs := by
    rw [List.length_take,c.size]
    exact Nat.min_le_right _ _
  rw [mulWide,mulRows_value one_lt_base (.replicate _ (by decide)),effectiveLimbLen_value left,
    effectiveLimbLen_value right,Nat.ofDigits_replicate_zero,Nat.add_zero,List.length_replicate]
  · apply Nat.mod_eq_of_lt
    rw [Nat.two_mul,pow_add,base_pow]
    exact Nat.mul_lt_mul'' (by omega) (by omega)
  · have first := lengths a
    have second := lengths b
    rw [List.length_replicate]
    omega

/-- A product's sign and magnitude, from those of its factors. -/
theorem mul_eq_natAbs :
    a.toInt * b.toInt = if a.isNegative != b.isNegative then -((a.toInt * b.toInt).natAbs : Int)
      else (a.toInt * b.toInt).natAbs := by
  have left := @isNegative_iff_toInt a
  have right := @isNegative_iff_toInt b
  split
  · rename_i differ
    have nonpositive : a.toInt * b.toInt ≤ 0 := by
      cases ha : a.isNegative <;> cases hb : b.isNegative <;> simp only [ha,hb] at left right differ
      · cases differ
      · exact Int.mul_nonpos_of_nonneg_of_nonpos (by simpa using left) (by simp at right; omega)
      · exact Int.mul_nonpos_of_nonpos_of_nonneg (by simp at left; omega) (by simpa using right)
      · cases differ
    omega
  · rename_i same
    have nonnegative : 0 ≤ a.toInt * b.toInt := by
      cases ha : a.isNegative <;> cases hb : b.isNegative <;> simp only [ha,hb] at left right same
      · exact Int.mul_nonneg (by simpa using left) (by simpa using right)
      · exact absurd rfl same
      · exact absurd rfl same
      · exact Int.mul_nonneg_of_nonpos_of_nonpos (by simp at left; omega) (by simp at right; omega)
    omega

/-- A sign put on a magnitude of twice as many limbs, once the magnitude is seen to fit. -/
theorem Exact.ofMagnitude {wide : List Nat} {negative : Bool} (size : wide.length = 2 * bigintLimbs)
    (digits : Digits base wide) (magnitude : ofDigits base wide = z.natAbs)
    (sign : z = if negative then -(z.natAbs : Int) else z.natAbs)
    (length : (wide.take bigintLimbs).length = bigintLimbs) (small : Digits base (wide.take bigintLimbs)) :
    Exact (if magnitudeFits1024 wide negative then
        .ok (if negative then negateLimbs ⟨wide.take bigintLimbs,length,small⟩ else ⟨wide.take bigintLimbs,length,small⟩)
      else throwBigintOverflow) z := by
  have positive := limit_pos
  have fits := @magnitudeFits1024_iff _ negative digits (by rw [size]; decide)
  rw [magnitude] at fits
  have low : ofDigits base (wide.take bigintLimbs) = z.natAbs % (2 * limit) := by
    rw [← Nat.ofDigits_mod_pow_eq_ofDigits_take _ (by decide) _ digits,magnitude,base_pow]
  split
  · rename_i inside
    rw [fits] at inside
    rw [Nat.mod_eq_of_lt (by omega)] at low
    apply Exact.ok
    split
    · rename_i negative
      rw [if_pos negative] at sign
      rw [toInt_negateLimbs_of_le (by rw [Limbs.toNat,low]; omega),Limbs.toNat,low,← sign]
    · rename_i positive
      rw [if_neg positive] at sign
      obtain below | ⟨negative,-⟩ := inside
      · rw [toInt_of_lt (by rw [Limbs.toNat,low]; omega),Limbs.toNat,low,← sign]
      · exact absurd negative positive
  · rename_i outside
    rw [fits,not_or] at outside
    apply Exact.overflow
    unfold InRange
    split at sign
    · rename_i negative
      have other : z.natAbs ≠ limit := fun same => outside.2 ⟨negative,same⟩
      omega
    · omega

theorem mulLimbsChecked_exact : Exact (mulLimbsChecked a b) (a.toInt * b.toInt) := by
  have product : ofDigits base (mulWide a.magnitude b.magnitude) = (a.toInt * b.toInt).natAbs := by
    rw [mulWide_value toNat_magnitude_le toNat_magnitude_le,toNat_magnitude,toNat_magnitude,
      Int.natAbs_mul]
  rw [mulLimbsChecked]
  exact .ofMagnitude mulWide_length mulWide_digits product mul_eq_natAbs _ _

/-- What the host path writes back is exact when it fits an `i128`. -/
theorem writeI128_exact (low : -2 ^ 127 ≤ z) (high : z < 2 ^ 127) : Exact (.ok (writeI128 z)) z :=
  .ok (toInt_writeI128 low high)

theorem jsBigintAdd_exact : Exact (jsBigintAdd a b) (a.toInt + b.toInt) := by
  rw [jsBigintAdd]
  split
  · rename_i av bv left right
    obtain ⟨left,leftLow,leftHigh⟩ := fitsInI64_some left
    obtain ⟨right,rightLow,rightHigh⟩ := fitsInI64_some right
    rw [left,right]
    exact writeI128_exact (by omega) (by omega)
  · exact addSlow_exact

theorem jsBigintSub_exact : Exact (jsBigintSub a b) (a.toInt - b.toInt) := by
  rw [jsBigintSub]
  split
  · rename_i av bv left right
    obtain ⟨left,leftLow,leftHigh⟩ := fitsInI64_some left
    obtain ⟨right,rightLow,rightHigh⟩ := fitsInI64_some right
    rw [left,right]
    exact writeI128_exact (by omega) (by omega)
  · exact subSlow_exact

theorem jsBigintMul_exact : Exact (jsBigintMul a b) (a.toInt * b.toInt) := by
  rw [jsBigintMul]
  split
  · rename_i av bv left right
    obtain ⟨left,leftLow,leftHigh⟩ := fitsInI64_some left
    obtain ⟨right,rightLow,rightHigh⟩ := fitsInI64_some right
    have product : (av * bv).natAbs ≤ 2 ^ 63 * 2 ^ 63 := by
      rw [Int.natAbs_mul]
      exact Nat.mul_le_mul (by omega) (by omega)
    rw [left,right]
    exact writeI128_exact (by omega) (by omega)
  · exact mulLimbsChecked_exact

/-- The ring operations are exact or raise the overflow error, and the path through the
host integer gives on every pair of operands what the sixteen-limb path gives. -/
theorem ringOperations_exact (a b : Limbs) :
    Exact (jsBigintAdd a b) (a.toInt + b.toInt) ∧ Exact (jsBigintSub a b) (a.toInt - b.toInt) ∧
      Exact (jsBigintMul a b) (a.toInt * b.toInt) ∧ Exact (jsBigintNeg a) (-a.toInt) ∧
      jsBigintAdd a b = addSlow a b ∧ jsBigintSub a b = subSlow a b ∧
      jsBigintMul a b = mulLimbsChecked a b :=
  ⟨jsBigintAdd_exact,jsBigintSub_exact,jsBigintMul_exact,jsBigintNeg_exact,
    jsBigintAdd_exact.unique addSlow_exact,jsBigintSub_exact.unique subSlow_exact,
    jsBigintMul_exact.unique mulLimbsChecked_exact⟩

end Perry.Runtime.BigInt
