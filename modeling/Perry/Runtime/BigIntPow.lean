import Mathlib.Data.Nat.Factorization.Basic
import Perry.Runtime.BigIntArith

/-! `js_bigint_pow`: square and multiply with checked products. A square is taken only while
bits of the exponent remain, so one that overflows is a factor of the power itself. -/
namespace Perry.Runtime.BigInt

open Perry.Words
open Nat (ofDigits)
open Limbs

variable {a b : Limbs} {x z : Int}

def exponentMessage : String := "Exponent must be positive"

def one : Limbs := ofWords [1]

/-- The loop of `js_bigint_pow` over the exponent `e`. -/
def powLoop (e : Nat) (result power : Limbs) : Outcome :=
  if e = 0 then .ok result
  else
    (if e % 2 = 1 then mulLimbsChecked result power else .ok result) >>= fun result =>
      if e / 2 = 0 then .ok result
      else mulLimbsChecked power power >>= fun power => powLoop (e / 2) result power
termination_by e

/-- `js_bigint_pow`. Only the lowest limb of the exponent is read. -/
def jsBigintPow (a b : Limbs) : Outcome :=
  if b.isNegative then .error (.rangeError exponentMessage)
  else
    let exp := b.words.getD 0 0
    if exp = 0 then .ok one else powLoop exp one a

theorem toInt_one : one.toInt = 1 := by
  have value : one.toNat = 1 := by rw [one,toNat_ofWords (digits_cons.mpr ⟨by decide,.nil⟩) (by decide)]; rfl
  have room : 1 < limit := Nat.lt_of_lt_of_le one_lt_base (base_pow_le_limit (n := 1) (by decide))
  rw [toInt_of_lt (by omega),value]
  rfl

theorem square_ne_limit (n : Nat) : n ^ 2 ≠ limit := by
  intro same
  have twos := congrArg (fun m => m.factorization 2) same
  rw [show limit = 2 ^ 1023 by unfold limit; rfl] at twos
  simp only [Nat.factorization_pow,Finsupp.smul_apply,smul_eq_mul,
    Nat.Prime.factorization_self Nat.prime_two] at twos
  omega

/-- An integer out of range stays out of range under a positive factor. -/
theorem not_inRange_mul (outside : ¬InRange z) {s : Int} (positive : 0 < s) : ¬InRange (z * s) := by
  have room := limit_pos
  unfold InRange at outside ⊢
  obtain small | large := Int.lt_or_le z (-limit)
  · have : z * s ≤ z * 1 := Int.mul_le_mul_of_nonpos_left (by omega) positive
    omega
  · have : z * 1 ≤ z * s := Int.mul_le_mul_of_nonneg_left positive (by omega)
    omega

theorem not_inRange_square (outside : ¬InRange (x * x)) : (limit : Int) < x * x := by
  have other : x * x ≠ limit := by
    intro same
    apply square_ne_limit x.natAbs
    zify
    rw [sq_abs,pow_two,same]
  have nonnegative := mul_self_nonneg x
  unfold InRange at outside
  omega

/-- A power with a factor above the limit is out of range on either side. -/
theorem not_inRange_power {r s : Int} (nonzero : r ≠ 0) (positive : 0 < s) (large : (limit : Int) < x) :
    ¬InRange (r * (x * s)) := by
  have room := limit_pos
  have product : x * 1 ≤ x * s := Int.mul_le_mul_of_nonneg_left positive (by omega)
  unfold InRange
  obtain negative | positive := Int.lt_or_gt_of_ne nonzero
  · have : r * (x * s) ≤ -1 * (x * s) := Int.mul_le_mul_of_nonneg_right (by omega) (by omega)
    omega
  · have : 1 * (x * s) ≤ r * (x * s) := Int.mul_le_mul_of_nonneg_right (by omega) (by omega)
    omega

/-- What follows a checked product: it is exact for the factor if the product is, and an
overflow stays one. -/
theorem Exact.bind {outcome : Outcome} {next : Limbs → Outcome} {y : Int} (first : Exact outcome z)
    (exact : ∀ c : Limbs,c.toInt = z → Exact (next c) y) (overflow : ¬InRange z → ¬InRange y) :
    Exact (outcome >>= next) y := by
  by_cases inside : InRange z
  · rw [Exact,if_pos inside] at first
    obtain ⟨c,rfl,value⟩ := first
    exact exact c value
  · rw [Exact,if_neg inside] at first
    rw [first]
    exact .overflow (overflow inside)

/-- The loop multiplies its result by the power. It never multiplies a zero result by
anything but zero, so no overflow on the way is undone later. -/
theorem powLoop_exact (e : Nat) (result power : Limbs) (nonzero : power.toInt = 0 ∨ result.toInt ≠ 0) :
    Exact (powLoop e result power) (result.toInt * power.toInt ^ e) := by
  induction e using Nat.strong_induction_on generalizing result power with
  | h e ih =>
    rw [powLoop]
    by_cases done : e = 0
    · rw [if_pos done,done,pow_zero,Int.mul_one]
      exact .ok rfl
    rw [if_neg done]
    have split_power : power.toInt ^ e = power.toInt ^ (e % 2) * (power.toInt * power.toInt) ^ (e / 2) := by
      rw [← pow_two,← pow_mul,← pow_add,Nat.mod_add_div]
    have multiplied : Exact (if e % 2 = 1 then mulLimbsChecked result power else .ok result)
        (result.toInt * power.toInt ^ (e % 2)) := by
      split
      · next odd =>
        rw [odd,pow_one]
        exact mulLimbsChecked_exact
      · next even =>
        rw [show e % 2 = 0 by omega,pow_zero,Int.mul_one]
        exact .ok rfl
    rw [split_power,← Int.mul_assoc]
    refine multiplied.bind (fun c value => ?_) fun outside => ?_
    · have kept : power.toInt = 0 ∨ c.toInt ≠ 0 := by
        by_cases zero : power.toInt = 0
        · exact .inl zero
        · rw [value]
          exact .inr (mul_ne_zero (nonzero.resolve_left zero) (pow_ne_zero _ zero))
      rw [← value]
      by_cases last : e / 2 = 0
      · rw [if_pos last,last,pow_zero,Int.mul_one]
        exact .ok rfl
      rw [if_neg last]
      refine mulLimbsChecked_exact.bind (fun d square => ?_) fun outside => ?_
      · rw [← square]
        refine ih (e / 2) (by omega) c d (kept.imp_left fun zero => ?_)
        rw [square,zero,Int.mul_zero]
      · have large := not_inRange_square outside
        have some : power.toInt ≠ 0 := by
          rintro zero
          rw [zero,Int.mul_zero] at large
          omega
        obtain ⟨m,next⟩ := Nat.exists_eq_succ_of_ne_zero last
        rw [next,pow_succ']
        exact not_inRange_power (kept.resolve_left some) (pow_pos (mul_self_pos.mpr some) m) large
    · by_cases none : power.toInt = 0
      · refine absurd ?_ outside
        rw [none]
        obtain even | odd := Nat.mod_two_eq_zero_or_one e
        · rw [even,pow_zero,Int.mul_one]
          exact result.toInt_inRange
        · rw [odd,pow_one,Int.mul_zero,← toInt_zero]
          exact zero.toInt_inRange
      · exact not_inRange_mul outside (pow_pos (mul_self_pos.mpr none) _)

/-- `js_bigint_pow` with a non-negative exponent raises to its value modulo 2^64. -/
theorem jsBigintPow_exact (a b : Limbs) (nonnegative : 0 ≤ b.toInt) :
    Exact (jsBigintPow a b) (a.toInt ^ (b.toInt.toNat % 2 ^ 64)) := by
  have sign : b.isNegative = false := by
    rw [Bool.eq_false_iff,Ne,isNegative_iff_toInt]
    omega
  have low : b.words.getD 0 0 = b.toInt.toNat % 2 ^ 64 := by
    have value := value_digit (by decide : 0 < base) b.small 0
    rw [pow_zero,Nat.div_one] at value
    rw [← value]
    have number : b.toInt.toNat = ofDigits base b.words := by
      have plain : ¬limit ≤ b.toNat := by rw [← isNegative_iff,sign]; exact Bool.false_ne_true
      rw [toInt_of_lt (by omega)]
      rfl
    rw [number]
  rw [jsBigintPow,sign,if_neg Bool.false_ne_true,← low]
  dsimp only
  split
  · next zero =>
    rw [zero,pow_zero]
    exact .ok toInt_one
  · have power := powLoop_exact (b.words.getD 0 0) one a (.inr (by rw [toInt_one]; decide))
    rwa [toInt_one,Int.one_mul] at power

/-- The cube of 2^300, whose fourth power would overflow. -/
theorem jsBigintPow_cube : 0 ≤ (ofWords [3]).toInt ∧ Exact (jsBigintPow (ofWords [0,0,0,0,2 ^ 44]) (ofWords [3]))
    ((ofWords [0,0,0,0,2 ^ 44]).toInt ^ ((ofWords [3]).toInt.toNat % 2 ^ 64)) := by
  have positive : 0 ≤ (ofWords [3]).toInt := Int.not_lt.mp fun negative =>
    absurd (isNegative_iff_toInt.mpr negative) (by decide)
  exact ⟨positive,jsBigintPow_exact _ _ positive⟩

/-- Zero to the power of 2^64 is computed as zero to the power of zero. -/
theorem jsBigintPow_truncates : ¬Exact (jsBigintPow zero (ofWords [0,1]))
    (zero.toInt ^ (ofWords [0,1]).toInt.toNat) := by
  have computed : jsBigintPow zero (ofWords [0,1]) = .ok one := by
    rw [jsBigintPow,if_neg (by decide)]
    rfl
  have value : (ofWords [0,1]).toNat = 2 ^ 64 := by
    rw [toNat_ofWords (digits_cons.mpr ⟨by decide,digits_cons.mpr ⟨by decide,.nil⟩⟩) (by decide)]
    rfl
  have room : 2 ^ 64 < limit := Nat.lt_of_lt_of_le (by decide) (base_pow_le_limit (n := 2) (by decide))
  intro exact
  rw [computed,toInt_zero,toInt_of_lt (by omega),value,Int.toNat_natCast,zero_pow (Nat.two_pow_pos 64).ne',
    ← toInt_zero] at exact
  have same := exact.unique (.ok rfl)
  have digits := congrArg (Except.map Limbs.words) same
  exact absurd digits (by decide)

end Perry.Runtime.BigInt
