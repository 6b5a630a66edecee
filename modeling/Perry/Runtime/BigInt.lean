import Perry.Words.Bits

/-! The fixed-width integers of `perry-runtime/src/bigint/mod.rs`: sixteen 64-bit limbs in
little-endian order, read as a two's complement number. -/
namespace Perry.Runtime.BigInt

open Perry.Words
open Nat (ofDigits ofDigits_cons ofDigits_append)

abbrev bigintLimbs : Nat := 16

/-- One past the largest limb. -/
abbrev base : Nat := 2 ^ 64

/-- The magnitude of the least representable value. -/
def limit : Nat := 2 ^ 1023

structure Limbs where
  words : List Nat
  size : words.length = bigintLimbs
  small : Digits base words

inductive Error where
  | rangeError (message : String)
  | syntaxError (message : String)
  /-- A Rust arithmetic panic. -/
  | panic
  deriving DecidableEq, Repr

abbrev Outcome := Except Error Limbs

def maxBigintSizeMessage : String := "Maximum BigInt size exceeded"
def divisionByZeroMessage : String := "Division by zero"

def throwBigintOverflow : Outcome := .error (.rangeError maxBigintSizeMessage)
def throwBigintDivisionByZero : Outcome := .error (.rangeError divisionByZeroMessage)

namespace Limbs

variable {a b : Limbs}

instance : DecidableEq Limbs := fun a b =>
  decidable_of_iff (a.words = b.words) ⟨fun same => by cases a; cases b; cases same; rfl,
    fun same => by rw [same]⟩

def toNat (a : Limbs) : Nat := ofDigits base a.words

def zero : Limbs := ⟨List.replicate bigintLimbs 0,rfl,.replicate _ (by decide)⟩

def isNegative (a : Limbs) : Bool := a.words.getD (bigintLimbs - 1) 0 >>> 63 == 1

/-- The number the limbs stand for. -/
def toInt (a : Limbs) : Int := signed limit a.toNat

end Limbs

def InRange (z : Int) : Prop := -(limit : Int) ≤ z ∧ z < limit

instance (z : Int) : Decidable (InRange z) := inferInstanceAs (Decidable (_ ∧ _))

theorem base_pow : base ^ bigintLimbs = 2 * limit := by
  have general (m n : Nat) (next : m = n + 1) : 2 ^ m = 2 * 2 ^ n := by rw [next,pow_succ']
  rw [← pow_mul,limit]
  exact general (64 * bigintLimbs) 1023 rfl

theorem limit_eq : limit = base ^ (bigintLimbs - 1) * 2 ^ 63 := by
  have general (m n l : Nat) (sum : m = n + l) : 2 ^ m = 2 ^ n * 2 ^ l := by rw [sum,pow_add]
  rw [← pow_mul]
  exact general _ _ _ rfl

theorem one_lt_base : 1 < base := by decide

theorem limit_pos : 0 < limit := by
  unfold limit
  positivity

attribute [irreducible] limit

namespace Limbs

variable {a b : Limbs}

theorem toNat_lt (a : Limbs) : a.toNat < 2 * limit := by
  have bound := a.small.value_lt one_lt_base
  rwa [a.size,base_pow] at bound

theorem toNat_inj (same : a.toNat = b.toNat) : a = b := by
  have words := (value_inj one_lt_base (a.size.trans b.size.symm) a.small b.small).mp same
  cases a
  cases b
  cases words
  rfl

@[simp] theorem toNat_zero : zero.toNat = 0 := Nat.ofDigits_replicate_zero

theorem toNat_eq_zero_iff : a.toNat = 0 ↔ a = zero := by
  constructor
  · intro empty
    exact toNat_inj (empty.trans toNat_zero.symm)
  · rintro rfl
    exact toNat_zero

/-- Write the words, each cast to a `u64`, into zeroed limbs. -/
def ofWords (ws : List Nat) : Limbs :=
  ⟨(ws.take bigintLimbs).map (· % base) ++ List.replicate (bigintLimbs - ws.length) 0,
    by
      rw [List.length_append,List.length_map,List.length_take,List.length_replicate]
      omega,
    by
      apply Digits.append _ (.replicate _ (by decide))
      intro w mem
      obtain ⟨v,-,rfl⟩ := List.mem_map.mp mem
      exact Nat.mod_lt _ (by decide)⟩

theorem toNat_ofWords {ws : List Nat} (digits : Digits base ws) (room : ws.length ≤ bigintLimbs) :
    (ofWords ws).toNat = ofDigits base ws := by
  have words : ws.map (· % base) = ws := by
    rw [List.map_congr_left fun w mem => Nat.mod_eq_of_lt (digits w mem),List.map_id']
  rw [toNat,ofWords]
  dsimp only
  rw [List.take_of_length_le room,words,Nat.ofDigits_append_replicate_zero]

theorem toInt_inRange (a : Limbs) : InRange a.toInt := signed_bounds a.toNat_lt

theorem toInt_inj (same : a.toInt = b.toInt) : a = b :=
  toNat_inj (signed_inj a.toNat_lt b.toNat_lt same)

@[simp] theorem toInt_zero : zero.toInt = 0 := by
  simp [toInt,signed,limit_pos]

theorem toInt_eq_zero_iff : a.toInt = 0 ↔ a = zero := by
  constructor
  · intro empty
    exact toInt_inj (empty.trans toInt_zero.symm)
  · rintro rfl
    exact toInt_zero

/-- The highest bit of the highest limb is the sign. -/
theorem top_bit {ws : List Nat} (digits : Digits base ws) (size : ws.length = bigintLimbs) :
    ws.getD (bigintLimbs - 1) 0 >>> 63 = ofDigits base ws / limit := by
  have bound := digits.value_lt one_lt_base
  rw [size,base_pow] at bound
  rw [limit_eq,← Nat.div_div_eq_div_mul,
    value_div_top (n := bigintLimbs - 1) (Nat.zero_lt_of_lt one_lt_base) digits size,
    Nat.shiftRight_eq_div_pow]

theorem isNegative_iff : a.isNegative ↔ limit ≤ a.toNat := by
  have bound := a.toNat_lt
  have high := top_bit a.small a.size
  rw [isNegative,beq_iff_eq,high,toNat]
  rw [toNat] at bound
  constructor
  · intro set
    have := Nat.div_mul_le_self (ofDigits base a.words) limit
    rwa [set,Nat.one_mul] at this
  · intro large
    exact Nat.div_eq_of_lt_le (by omega) (by omega)

theorem isNegative_iff_toInt : a.isNegative ↔ a.toInt < 0 := by
  rw [isNegative_iff,toInt,signed_neg_iff a.toNat_lt]

end Limbs

namespace Limbs

variable {a b : Limbs} {z : Int}

/-- `negate_limbs`: flip every bit and add one. -/
def negateLimbs (a : Limbs) : Limbs :=
  ⟨complement base a.words 1,by rw [complement_length,a.size],complement_digits (by decide)⟩

theorem toNat_negateLimbs : (negateLimbs a).toNat = (2 * limit - a.toNat) % (2 * limit) := by
  have bound := a.toNat_lt
  have value := complement_value (c := 1) one_lt_base a.small
  rw [a.size,base_pow] at value
  have total : 2 * limit - 1 - ofDigits base a.words + 1 = 2 * limit - a.toNat := by
    rw [toNat] at bound ⊢
    omega
  rw [total] at value
  exact value

theorem toInt_of_lt (small : a.toNat < limit) : a.toInt = a.toNat := by
  rw [toInt,signed,if_pos small]

theorem toInt_negateLimbs_of_le (small : a.toNat ≤ limit) : (negateLimbs a).toInt = -a.toNat := by
  have positive := limit_pos
  rw [toInt,toNat_negateLimbs,mod_two_half (by omega),signed]
  split <;> split <;> omega

theorem toInt_negateLimbs (above : a.toInt ≠ -limit) : (negateLimbs a).toInt = -a.toInt := by
  have bound := a.toNat_lt
  have positive := limit_pos
  unfold toInt signed at above ⊢
  rw [toNat_negateLimbs,mod_two_half (by omega)]
  split at above
  all_goals split
  all_goals split
  all_goals omega

/-- The absolute value, as the unsigned number the limbs write. -/
def magnitude (a : Limbs) : Limbs := if a.isNegative then negateLimbs a else a

theorem toNat_magnitude : a.magnitude.toNat = a.toInt.natAbs := by
  have bound := a.toNat_lt
  rw [magnitude,toInt,signed]
  split
  · rename_i negative
    rw [isNegative_iff] at negative
    rw [toNat_negateLimbs,Nat.mod_eq_of_lt (by omega),if_neg (by omega)]
    omega
  · rename_i positive
    rw [isNegative_iff] at positive
    rw [if_pos (by omega)]
    omega

theorem toNat_magnitude_le : a.magnitude.toNat ≤ limit := by
  have range := a.toInt_inRange
  rw [toNat_magnitude]
  unfold InRange at range
  omega

/-- The sign put back on a magnitude gives the number it is the magnitude of. -/
theorem toInt_restoreSign {m : Limbs} {z : Int} {negative : Prop} [Decidable negative]
    (magnitude : m.toNat = z.natAbs) (inside : InRange z) (below : negative → z ≤ 0)
    (above : ¬ negative → 0 ≤ z) :
    (if negative ∧ m ≠ zero then negateLimbs m else m).toInt = z := by
  unfold InRange at inside
  split
  · rename_i flipped
    have sign := below flipped.1
    rw [toInt_negateLimbs_of_le (by omega)]
    omega
  · rename_i kept
    have sign : 0 ≤ z := by
      by_cases h : negative
      · have empty : m = zero := not_not.mp fun some => kept ⟨h,some⟩
        rw [empty,toNat_zero] at magnitude
        omega
      · exact above h
    rw [toInt_of_lt (by omega)]
    omega

/-- The least value. -/
def least : Limbs := ofWords (List.replicate (bigintLimbs - 1) 0 ++ [1 <<< 63])

theorem toInt_least : least.toInt = -limit := by
  decide +kernel

end Limbs

/-- `magnitude_fits_1024`: whether an unsigned number of at least sixteen limbs is
representable with the sign it will carry. -/
def magnitudeFits1024 (mag : List Nat) (negative : Bool) : Bool :=
  if (mag.drop bigintLimbs).any (· != 0) then false
  else
    let top := mag.getD (bigintLimbs - 1) 0
    if top >>> 63 = 0 then true
    else negative && top == 1 <<< 63 && (mag.take (bigintLimbs - 1)).all (· == 0)

theorem value_split {mag : List Nat} (size : bigintLimbs ≤ mag.length)
    (high : ofDigits base (mag.drop bigintLimbs) = 0) :
    ofDigits base mag = ofDigits base (mag.take (bigintLimbs - 1)) +
      base ^ (bigintLimbs - 1) * mag.getD (bigintLimbs - 1) 0 := by
  have inside : bigintLimbs - 1 < mag.length := by
    unfold bigintLimbs at *
    omega
  have lower : (mag.take (bigintLimbs - 1)).length = bigintLimbs - 1 := by
    rw [List.length_take,Nat.min_eq_left (Nat.le_of_lt inside)]
  have append := @ofDigits_append base (mag.take (bigintLimbs - 1)) (mag.drop (bigintLimbs - 1))
  rw [List.take_append_drop,lower,List.drop_eq_getElem_cons inside,ofDigits_cons] at append
  rw [append,List.getD_eq_getElem _ _ inside]
  change _ + _ * (_ + base * ofDigits base (mag.drop bigintLimbs)) = _
  rw [high,Nat.mul_zero,Nat.add_zero]

theorem magnitude_eq_limit_iff {mag : List Nat} (digits : Digits base mag)
    (size : bigintLimbs ≤ mag.length) (high : ofDigits base (mag.drop bigintLimbs) = 0) :
    ofDigits base mag = limit ↔
      mag.getD (bigintLimbs - 1) 0 = 1 <<< 63 ∧ ∀ w ∈ mag.take (bigintLimbs - 1),w = 0 := by
  have value := value_split size high
  have positive : 0 < base ^ (bigintLimbs - 1) := Nat.pow_pos (by decide)
  have lower : ofDigits base (mag.take (bigintLimbs - 1)) < base ^ (bigintLimbs - 1) := by
    have bound := (digits.take (bigintLimbs - 1)).value_lt one_lt_base
    rwa [List.length_take,Nat.min_eq_left (Nat.le_trans (by decide) size)] at bound
  rw [← value_eq_zero (B := base) (by decide),limit_eq,value,Nat.one_shiftLeft]
  constructor
  · intro same
    have quotient := congrArg (· / base ^ (bigintLimbs - 1)) same
    have remainder := congrArg (· % base ^ (bigintLimbs - 1)) same
    simp only [Nat.add_mul_div_left _ _ positive,Nat.div_eq_of_lt lower,
      Nat.mul_div_cancel_left _ positive,Nat.zero_add] at quotient
    simp only [Nat.add_mul_mod_self_left,Nat.mod_eq_of_lt lower,Nat.mul_mod_right] at remainder
    exact ⟨quotient,remainder⟩
  · rintro ⟨top,rest⟩
    rw [top,rest,Nat.zero_add]

theorem magnitudeFits1024_iff {mag : List Nat} {negative : Bool} (digits : Digits base mag)
    (size : bigintLimbs ≤ mag.length) :
    magnitudeFits1024 mag negative ↔
      ofDigits base mag < limit ∨ (negative ∧ ofDigits base mag = limit) := by
  have positive := limit_pos
  have low : (mag.take bigintLimbs).length = bigintLimbs := by simp [size]
  have split : ofDigits base mag = ofDigits base (mag.take bigintLimbs) +
      2 * limit * ofDigits base (mag.drop bigintLimbs) := by
    have append := @ofDigits_append base (mag.take bigintLimbs) (mag.drop bigintLimbs)
    rwa [List.take_append_drop,low,base_pow] at append
  rw [magnitudeFits1024]
  split
  · rename_i high
    have above : 0 < ofDigits base (mag.drop bigintLimbs) := by
      rw [Nat.pos_iff_ne_zero,Ne,value_eq_zero (by decide)]
      simpa using high
    have large := Nat.mul_le_mul_left (2 * limit) above
    simp only [Bool.false_eq_true,false_iff]
    omega
  · rename_i high
    have none : ofDigits base (mag.drop bigintLimbs) = 0 := by
      rw [value_eq_zero (by decide)]
      simpa using high
    rw [none,Nat.mul_zero,Nat.add_zero] at split
    have lowDigits := digits.take bigintLimbs
    have bound := lowDigits.value_lt one_lt_base
    have top : (mag.take bigintLimbs).getD (bigintLimbs - 1) 0 = mag.getD (bigintLimbs - 1) 0 := by
      simp [List.getD_eq_getElem?_getD]
    have sign := Limbs.top_bit lowDigits low
    rw [low,base_pow,← split] at bound
    rw [top,← split] at sign
    dsimp only
    rw [sign]
    split
    · rename_i clear
      rw [Nat.div_eq_zero_iff_lt limit_pos] at clear
      simp [clear]
    · rename_i set
      rw [Nat.div_eq_zero_iff_lt limit_pos] at set
      rw [magnitude_eq_limit_iff digits size none]
      simp [set,and_assoc]

section HostIntegers

variable {a : Limbs} {v : Int} {lows : List Nat}

/-- Low limbs and the fill of the sign above them. -/
def signExtend (lows : List Nat) (negative : Bool) : List Nat :=
  lows ++ List.replicate (bigintLimbs - lows.length) (if negative then base - 1 else 0)

theorem signExtend_length (room : lows.length ≤ bigintLimbs) (negative : Bool) :
    (signExtend lows negative).length = bigintLimbs := by
  rw [signExtend,List.length_append,List.length_replicate]
  omega

theorem signExtend_digits (digits : Digits base lows) (negative : Bool) :
    Digits base (signExtend lows negative) := by
  apply digits.append (.replicate _ _)
  split <;> decide

theorem base_pow_le_limit {n : Nat} (short : n < bigintLimbs) : base ^ n ≤ limit := by
  rw [limit_eq]
  calc base ^ n ≤ base ^ (bigintLimbs - 1) :=
        Nat.pow_le_pow_right (by decide) (Nat.le_sub_one_of_lt short)
    _ ≤ base ^ (bigintLimbs - 1) * 2 ^ 63 := Nat.le_mul_of_pos_right _ (Nat.two_pow_pos 63)

theorem signed_signExtend (digits : Digits base lows) (short : lows.length < bigintLimbs)
    (negative : Bool) :
    signed limit (ofDigits base (signExtend lows negative)) =
      if negative then ((ofDigits base lows : Nat) : Int) - (base ^ lows.length : Nat)
      else (ofDigits base lows : Nat) := by
  have bound := digits.value_lt one_lt_base
  have room := base_pow_le_limit short
  rw [signExtend,ofDigits_append]
  cases negative with
  | false =>
    simp only [Bool.false_eq_true,if_false,Nat.ofDigits_replicate_zero,Nat.mul_zero,Nat.add_zero]
    rw [signed,if_pos (by omega)]
  | true =>
    have fill := value_replicate_top (B := base) (by decide) (bigintLimbs - lows.length)
    have whole : base ^ lows.length * base ^ (bigintLimbs - lows.length) = 2 * limit := by
      rw [← pow_add,Nat.add_sub_cancel' (Nat.le_of_lt short),base_pow]
    rw [← fill,Nat.mul_succ] at whole
    simp only [if_true]
    generalize base ^ lows.length = power at *
    rw [signed,if_neg (by omega)]
    omega

/-- `fits_in_i64`: the value as a host `i64`, if the upper limbs only extend its sign. -/
def fitsInI64 (a : Limbs) : Option Int :=
  let lo := a.words.getD 0 0
  let expectedFill := if lo >>> 63 = 0 then 0 else base - 1
  if (a.words.drop 1).all (· == expectedFill) then some (signed (2 ^ 63) lo) else none

/-- `write_i64`. -/
def writeI64 (v : Int) : Limbs :=
  ⟨signExtend [(v % 2 ^ 64).toNat] (v < 0),signExtend_length (Nat.le_of_ble_eq_true rfl) _,
    signExtend_digits (digits_cons.mpr ⟨show _ < 2 ^ 64 by omega,.nil⟩) _⟩

theorem i128_digits (v : Int) :
    Digits base [(v % 2 ^ 128).toNat % 2 ^ 64,(v % 2 ^ 128).toNat >>> 64] := by
  refine digits_cons.mpr ⟨Nat.mod_lt _ (by decide),digits_cons.mpr ⟨?_,.nil⟩⟩
  rw [Nat.shiftRight_eq_div_pow]
  show _ < 2 ^ 64
  omega

/-- `write_i128`. -/
def writeI128 (v : Int) : Limbs :=
  let bits := (v % 2 ^ 128).toNat
  ⟨signExtend [bits % 2 ^ 64,bits >>> 64] (v < 0),signExtend_length (Nat.le_of_ble_eq_true rfl) _,
    signExtend_digits (i128_digits v) _⟩

theorem fitsInI64_some (fits : fitsInI64 a = some v) : a.toInt = v ∧ -2 ^ 63 ≤ v ∧ v < 2 ^ 63 := by
  obtain ⟨words,size,small⟩ := a
  obtain _ | ⟨lo,rest⟩ := words
  · cases size
  · have low := (digits_cons.mp small).1
    have bounds : -((2 ^ 63 : Nat) : Int) ≤ signed (2 ^ 63) lo ∧ signed (2 ^ 63) lo < (2 ^ 63 : Nat) :=
      signed_bounds low
    have digit : Digits base [lo] := digits_cons.mpr ⟨low,.nil⟩
    have fill : (if lo >>> 63 = 0 then 0 else base - 1) =
        if decide (2 ^ 63 ≤ lo) then base - 1 else 0 := by
      simp only [Nat.shiftRight_eq_div_pow,Nat.div_eq_zero_iff,decide_eq_true_eq]
      split <;> split <;> omega
    simp only [fitsInI64,List.getD_cons_zero,List.drop_one,List.tail_cons,fill] at fits
    by_cases filled : rest.all (· == if decide (2 ^ 63 ≤ lo) then base - 1 else 0)
    · rw [if_pos filled] at fits
      obtain rfl := Option.some.inj fits
      have words : lo :: rest = signExtend [lo] (decide (2 ^ 63 ≤ lo)) := by
        rw [signExtend,List.cons_append,List.nil_append]
        congr 1
        rw [List.eq_replicate_iff]
        refine ⟨Nat.succ.inj size,fun w mem => ?_⟩
        simpa using List.all_eq_true.mp filled w mem
      refine ⟨?_,by simpa using bounds⟩
      rw [Limbs.toInt,Limbs.toNat]
      dsimp only
      rw [words,signed_signExtend digit (Nat.lt_of_sub_eq_succ rfl),signed]
      simp only [Nat.ofDigits_singleton,List.length_singleton,pow_one,decide_eq_true_eq]
      have width : base = 2 ^ 64 := rfl
      split <;> split <;> omega
    · rw [if_neg filled] at fits
      cases fits

theorem toInt_writeI64 (low : -2 ^ 63 ≤ v) (high : v < 2 ^ 63) : (writeI64 v).toInt = v := by
  have digit : Digits base [(v % 2 ^ 64).toNat] :=
    digits_cons.mpr ⟨show _ < 2 ^ 64 by omega,.nil⟩
  rw [Limbs.toInt,Limbs.toNat,writeI64]
  dsimp only
  rw [signed_signExtend digit (Nat.lt_of_sub_eq_succ rfl)]
  simp only [Nat.ofDigits_singleton,List.length_singleton,pow_one,decide_eq_true_eq]
  have width : base = 2 ^ 64 := rfl
  split <;> omega

theorem toInt_writeI128 (low : -2 ^ 127 ≤ v) (high : v < 2 ^ 127) : (writeI128 v).toInt = v := by
  rw [Limbs.toInt,Limbs.toNat,writeI128]
  dsimp only
  rw [signed_signExtend (i128_digits v) (Nat.lt_of_sub_eq_succ rfl)]
  simp only [ofDigits_cons,Nat.ofDigits_nil,List.length_cons,List.length_nil,
    Nat.shiftRight_eq_div_pow,decide_eq_true_eq]
  have width : base = 2 ^ 64 := rfl
  rw [width]
  split <;> omega

end HostIntegers

end Perry.Runtime.BigInt
