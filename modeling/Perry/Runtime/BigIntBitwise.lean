import Perry.Runtime.BigIntArith
import Perry.Words.Bitwise

/-! The bitwise operators of `bigint/bitwise.rs` and `bigint/arith.rs`, limb by limb. -/
namespace Perry.Runtime.BigInt

open Perry.Words
open Nat (ofDigits)

/-- The limbs of two rows combined by an operation that stays within a limb. -/
def limbwise (g : Nat → Nat → Nat) (small : ∀ a < base,∀ b < base,g a b < base) (a b : Limbs) : Limbs where
  words := List.zipWith g a.words b.words
  size := by rw [List.length_zipWith,a.size,b.size,Nat.min_self]
  small := by
    intro w member
    obtain ⟨i,inside,rfl⟩ := List.mem_iff_getElem.mp member
    rw [List.getElem_zipWith]
    exact small _ (a.small _ (List.getElem_mem _)) _ (b.small _ (List.getElem_mem _))

def jsBigintAnd (a b : Limbs) : Outcome := .ok (limbwise (· &&& ·) (fun _ _ _ below => Nat.and_lt_two_pow _ below) a b)

def jsBigintOr (a b : Limbs) : Outcome := .ok (limbwise (· ||| ·) (fun _ below _ below' => Nat.or_lt_two_pow below below') a b)

def jsBigintXor (a b : Limbs) : Outcome := .ok (limbwise (· ^^^ ·) (fun _ below _ below' => Nat.xor_lt_two_pow below below') a b)

/-- Every limb is complemented. -/
def jsBigintNot (a : Limbs) : Outcome := .ok
  ⟨a.words.map fun w => base - (w + 1),by rw [List.length_map,a.size],by
    intro w member
    obtain ⟨v,_,rfl⟩ := List.mem_map.mp member
    exact Nat.sub_lt (Nat.two_pow_pos 64) (Nat.succ_pos v)⟩

variable {a b : Limbs}

theorem testBit_toInt (a : Limbs) (i : Nat) : a.toInt.testBit i = a.toNat.testBit (min i 1023) := by
  have below := a.toNat_lt
  unfold limit at below
  unfold Limbs.toInt limit
  exact testBit_signed below i

theorem bit_inside (a : Limbs) (i : Nat) : min i 1023 < 64 * a.words.length := by
  rw [a.size]
  exact Nat.lt_of_le_of_lt (Nat.min_le_right _ _) (by decide)

theorem testBit_limbwise {g : Nat → Nat → Nat} {f : Bool → Bool → Bool} {small : ∀ a < base,∀ b < base,g a b < base}
    (bits : ∀ a b i,(g a b).testBit i = f (a.testBit i) (b.testBit i)) (a b : Limbs) (i : Nat) :
    (limbwise g small a b).toInt.testBit i = f (a.toInt.testBit i) (b.toInt.testBit i) := by
  rw [testBit_toInt,testBit_toInt,testBit_toInt]
  exact testBit_zipWith (by decide) a.small b.small (limbwise g small a b).small bits (a.size.trans b.size.symm) (bit_inside a i)

/-- The operators are those of two's complement numbers without end. They never overflow. -/
theorem bitwise_exact (a b : Limbs) : (jsBigintAnd a b).map Limbs.toInt = .ok (a.toInt.land b.toInt) ∧
    (jsBigintOr a b).map Limbs.toInt = .ok (a.toInt.lor b.toInt) ∧ (jsBigintXor a b).map Limbs.toInt = .ok (a.toInt.xor b.toInt) ∧
    (jsBigintNot a).map Limbs.toInt = .ok (-a.toInt - 1) := by
  refine ⟨congrArg _ (int_ext fun i => ?_),congrArg _ (int_ext fun i => ?_),congrArg _ (int_ext fun i => ?_),
    congrArg _ (int_ext fun i => ?_)⟩
  · rw [testBit_limbwise Nat.testBit_and,Int.testBit_land]
  · rw [testBit_limbwise Nat.testBit_or,Int.testBit_lor]
  · rw [testBit_limbwise Nat.testBit_xor,Int.testBit_lxor]
  · rw [testBit_complement,testBit_toInt,testBit_toInt]
    exact testBit_complemented (by decide) a.small (bit_inside a i)

end Perry.Runtime.BigInt
