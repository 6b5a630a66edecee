import Mathlib.Data.Nat.Bitwise
import Perry.Words.Binary16
import Perry.Words.Binary64

/-! Conversion between doubles and half-precision bit patterns. What would not fit its width is refused. -/

namespace Perry.Runtime.TypedarrayHalf

open Perry.Words

def fit (width n : Nat) : Option Nat := if n < 2 ^ width then some n else none

def sub (a b : Nat) : Option Nat := if b ≤ a then some (a - b) else none

def shr (width n amount : Nat) : Option Nat := if amount < width then some (n >>> amount) else none

def shl (width n amount : Nat) : Option Nat := if amount < width then fit width (n <<< amount) else none

def i32 (n : Int) : Option Int := if -2 ^ 31 ≤ n ∧ n < 2 ^ 31 then some n else none

def u32 (n : Int) : Option Nat := if 0 ≤ n then fit 32 n.toNat else none

def round (significand shift : Nat) : Option Nat := do
  let kept ← shr 64 significand shift
  let remainder := significand &&& (← sub (← shl 64 1 shift) 1)
  let halfway ← shl 64 1 (← sub shift 1)
  if halfway < remainder ∨ (remainder = halfway ∧ kept &&& 1 = 1) then fit 64 (kept + 1) else pure kept

/-- The rest of `f64_to_f16_bits` for an exponent field that is neither zero nor all ones. -/
def roundNormal (sign : Nat) (exp : Int) (mantissa : Nat) : Option Nat := do
  let unbiased ← i32 (exp - 1023)
  let halfExp ← i32 (unbiased + 15)
  if 0x1F ≤ halfExp then pure (sign ||| 0x7C00)
  else
    let significand := mantissa ||| 0x0010000000000000
    if halfExp ≤ 0 then
      let shift ← u32 (← i32 (43 - halfExp))
      if 64 ≤ shift then pure sign
      else if shift = 0 then pure (sign ||| (← fit 16 significand))
      else pure (sign ||| (← fit 16 (← round significand shift)))
    else
      let rounded ← fit 32 (← round significand 42)
      let result ← fit 32 ((← shl 32 (← sub (← u32 halfExp) 1) 10) + rounded)
      if 0x1F ≤ (← shr 32 result 10) then pure (sign ||| 0x7C00) else pure (sign ||| (← fit 16 result))

def f64ToF16Bits (value : BitVec 64) : Option (BitVec 16) := do
  let bits := value.toNat
  let sign := (← fit 16 ((← shr 64 bits 48) &&& 0x8000)) &&& 0x8000
  let exp ← i32 ((← shr 64 bits 52) &&& 0x7FF : Nat)
  let mantissa := bits &&& 0x000FFFFFFFFFFFFF
  if exp = 0x7FF then
    if mantissa ≠ 0 then pure (BitVec.ofNat 16 (sign ||| 0x7E00)) else pure (BitVec.ofNat 16 (sign ||| 0x7C00))
  else if exp = 0 then pure (BitVec.ofNat 16 sign)
  else pure (BitVec.ofNat 16 (← roundNormal sign exp mantissa))

/-- `x != 0.0`. -/
def notZero : Binary64 → Bool
  | .finite d => d.mantissa ≠ 0
  | _ => true

def f16BitsToF64 (bits : BitVec 16) : Binary64 :=
  let sign := Binary64.ofDyadic (bits &&& 0x8000 ≠ 0) 1 0
  let exp := ((bits >>> 10) &&& 0x1F).toNat
  let mantissa := Binary64.ofNat (bits &&& 0x03FF).toNat
  if exp = 0 then .mul (.mul sign mantissa) (.twoPowi (-24))
  else if exp = 0x1F then
    if notZero mantissa then .nan else .mul sign (.infinite false)
  else .mul (.mul sign (.add (.ofNat 1) (.divPow 10 mantissa))) (.twoPowi (exp - 15))

section fields

variable {m n s width : Nat} {e : Int}

theorem fit_eq (small : n < 2 ^ width) : fit width n = some n := if_pos small

theorem i32_eq (low : -2 ^ 31 ≤ e) (high : e < 2 ^ 31) : i32 e = some e := if_pos ⟨low,high⟩

theorem u32_eq (low : 0 ≤ e) (high : e < 2 ^ 32) : u32 e = some e.toNat := by
  rw [u32,if_pos low]
  apply fit_eq
  omega

theorem shl_one (small : s < width) : shl width 1 s = some (2 ^ s) := by
  rw [shl,if_pos small,Nat.shiftLeft_eq,Nat.one_mul]
  exact fit_eq (Nat.pow_lt_pow_right (by decide) small)

theorem round_eq (narrow : m < 2 ^ 53) (some : 0 < s) (small : s < 64) : round m s = Option.some (Double.roundOff m s) := by
  obtain ⟨t,rfl⟩ := Nat.exists_eq_add_of_le' some
  have half : 2 ^ (t + 1) = 2 * 2 ^ t := Nat.pow_succ'
  have rounded := Double.roundOff_lt narrow (t + 1) some
  have below : sub (2 ^ (t + 1)) 1 = Option.some (2 ^ (t + 1) - 1) := if_pos Nat.one_le_two_pow
  have less : sub (t + 1) 1 = Option.some t := if_pos some
  rw [round,shr,if_pos small,shl_one small]
  simp only [Option.bind_eq_bind,Option.bind_some,below,less,shl_one (show t < 64 by omega),Nat.and_two_pow_sub_one_eq_mod,
    Nat.shiftRight_eq_div_pow,Nat.and_one_is_mod]
  unfold Double.roundOff at *
  rw [half] at *
  by_cases up : 2 ^ t < m % (2 * 2 ^ t) ∨ (m % (2 * 2 ^ t) = 2 ^ t ∧ m / (2 * 2 ^ t) % 2 = 1)
  · rw [if_pos up,if_pos (by omega)]
    rw [if_pos (by omega)] at rounded
    exact fit_eq (by omega)
  · rw [if_neg up,if_neg (by omega)]
    rfl

variable (value : BitVec 64)

def signBit (negative : Bool) : Nat := if negative then 0x8000 else 0

theorem sign_field : value.toNat >>> 48 &&& 0x8000 = signBit value.msb := by
  have high : (value.toNat >>> 48).testBit 15 = value.msb := by
    rw [Nat.testBit_shiftRight,BitVec.testBit_toNat,BitVec.msb_eq_getLsbD_last]
  rw [show 0x8000 = 2 ^ 15 by rfl,Nat.and_two_pow,high]
  cases value.msb with
  | true => rfl
  | false => rfl

theorem exponent_field : value.toNat >>> 52 &&& 0x7FF = Binary64.exponentField value := by
  rw [Nat.shiftRight_eq_div_pow]
  exact Nat.and_two_pow_sub_one_eq_mod _ 11

theorem mantissa_field : value.toNat &&& 0x000FFFFFFFFFFFFF = Binary64.fractionField value :=
  Nat.and_two_pow_sub_one_eq_mod _ 52

theorem significand_field (small : m < 2 ^ 52) : m ||| 0x0010000000000000 = 2 ^ 52 + m := by
  rw [Nat.or_comm]
  exact (Nat.two_pow_add_eq_or_of_lt small 1).symm

theorem sign_or (negative : Bool) (small : n < 2 ^ 15) : BitVec.ofNat 16 (signBit negative ||| n) = Binary16.pack negative n := by
  cases negative with
  | true => exact congrArg _ (Nat.two_pow_add_eq_or_of_lt small 1).symm
  | false => rw [signBit,if_neg Bool.false_ne_true,Nat.zero_or,Binary16.pack,if_neg Bool.false_ne_true,Nat.zero_add]

end fields

section encoding

open Binary64 (exponentField fractionField)

variable (value : BitVec 64)

theorem f64ToF16Bits_fields : f64ToF16Bits value =
    if exponentField value = 2047 then some (Binary16.pack value.msb (if fractionField value = 0 then 31744 else 32256))
    else if exponentField value = 0 then some (Binary16.pack value.msb 0)
    else (roundNormal (signBit value.msb) (exponentField value) (fractionField value)).map (BitVec.ofNat 16) := by
  have bound := Binary64.exponentField_lt value
  have sign : signBit value.msb &&& 0x8000 = signBit value.msb := by cases value.msb <;> rfl
  have fits : fit 16 (signBit value.msb) = some (signBit value.msb) := by cases value.msb <;> rfl
  have high : shr 64 value.toNat 48 = some (value.toNat >>> 48) := rfl
  have middle : shr 64 value.toNat 52 = some (value.toNat >>> 52) := rfl
  have zero := sign_or value.msb (show 0 < 2 ^ 15 by decide)
  rw [Nat.or_zero] at zero
  rw [f64ToF16Bits]
  simp -implicitDefEqProofs only [Option.bind_eq_bind,Option.pure_def,high,middle,Option.bind_some,sign_field,fits,sign,exponent_field,
    mantissa_field,i32_eq (show -2 ^ 31 ≤ (exponentField value : Int) by omega) (show (exponentField value : Int) < 2 ^ 31 by omega)]
  by_cases special : exponentField value = 2047
  · rw [if_pos special,if_pos (by omega),sign_or _ (by decide),sign_or _ (by decide)]
    by_cases none : fractionField value = 0
    · rw [if_pos none,if_neg (not_not.mpr none)]
    · rw [if_neg none,if_pos none]
  rw [if_neg special,if_neg (by omega),zero]
  by_cases low : exponentField value = 0
  · rw [if_pos low,if_pos (by omega)]
  · rw [if_neg low,if_neg (by omega)]
    cases roundNormal (signBit value.msb) (exponentField value) (fractionField value) with
    | none => rfl
    | some n => rfl

variable {e f : Nat} {negative : Bool}

theorem roundNormal_large (some : 1039 ≤ e) (ordinary : e < 2047) :
    roundNormal (signBit negative) e f = Option.some (signBit negative ||| 31744) := by
  rw [roundNormal]
  simp only [Option.bind_eq_bind]
  rw [i32_eq (by omega) (by omega),Option.bind_some,i32_eq (by omega) (by omega),
    Option.bind_some,if_pos (by omega)]
  rfl

theorem roundNormal_tiny (some : 0 < e) (tiny : e ≤ 987) : roundNormal (signBit negative) e f = Option.some (signBit negative) := by
  rw [roundNormal]
  simp only [Option.bind_eq_bind]
  rw [i32_eq (by omega) (by omega),Option.bind_some,i32_eq (by omega) (by omega),
    Option.bind_some,if_neg (by omega),if_pos (by omega),i32_eq (by omega) (by omega),Option.bind_some,u32_eq (by omega) (by omega),Option.bind_some,if_pos (by omega)]
  rfl

/-- A rounding by more than 42 places leaves the number of least units. -/
theorem roundNormal_subnormal (small : f < 2 ^ 52) (above : 987 < e) (subnormal : e ≤ 1008) :
    roundNormal (signBit negative) e f = some (signBit negative ||| Double.roundOff (2 ^ 52 + f) (1051 - e)) := by
  have bound : Double.roundOff (2 ^ 52 + f) (1051 - e) ≤ 1024 := by
    apply Double.roundOff_le
    have large : 2 ^ 43 ≤ 2 ^ (1051 - e) := Nat.pow_le_pow_right (by decide) (by omega)
    omega
  rw [roundNormal]
  simp only [Option.bind_eq_bind]
  rw [i32_eq (by omega) (by omega),Option.bind_some,i32_eq (by omega) (by omega),
    Option.bind_some,if_neg (by omega),if_pos (by omega),i32_eq (by omega) (by omega),Option.bind_some,u32_eq (by omega) (by omega),Option.bind_some,if_neg (by omega),if_neg (by omega),
    significand_field small,show (43 - ((e : Int) - 1023 + 15)).toNat = 1051 - e by omega,round_eq (by omega) (by omega) (by omega),
    Option.bind_some,fit_eq (by omega)]
  rfl

theorem roundNormal_normal (small : f < 2 ^ 52) (normal : 1008 < e) (below : e < 1039) : roundNormal (signBit negative) e f =
    some (signBit negative ||| min ((e - 1009) * 1024 + Double.roundOff (2 ^ 52 + f) 42) 31744) := by
  have bound : Double.roundOff (2 ^ 52 + f) 42 ≤ 2048 := Double.roundOff_le (by omega)
  have shifted : shl 32 (e - 1009) 10 = some ((e - 1009) * 1024) := by
    rw [shl,if_pos (by decide),Nat.shiftLeft_eq]
    exact fit_eq (by omega)
  have field (n : Nat) : shr 32 n 10 = some (n / 1024) := by
    rw [shr,if_pos (by decide),Nat.shiftRight_eq_div_pow]
  rw [roundNormal]
  simp only [Option.bind_eq_bind]
  rw [i32_eq (by omega) (by omega),Option.bind_some,i32_eq (by omega) (by omega),
    Option.bind_some,if_neg (by omega),if_neg (by omega),significand_field small,
    round_eq (by omega) (by decide) (by decide),Option.bind_some,fit_eq (by omega),Option.bind_some,u32_eq (by omega) (by omega),Option.bind_some,sub,if_pos (by omega),Option.bind_some,show ((e : Int) - 1023 + 15).toNat - 1 = e - 1009 by omega,shifted,Option.bind_some,
    fit_eq (by omega),Option.bind_some,field,Option.bind_some]
  by_cases past : 31 ≤ ((e - 1009) * 1024 + Double.roundOff (2 ^ 52 + f) 42) / 1024
  · rw [if_pos past,Nat.min_eq_right (by omega)]
    rfl
  · rw [if_neg past,Nat.min_eq_left (by omega),fit_eq (by omega)]
    rfl

variable {value} {d : Double}

theorem f64ToF16Bits_finite (shape : Binary64.fromBits value = .finite d) : ∃ c,f64ToF16Bits value =
    some (Binary16.pack d.negative (min c 31744)) ∧ (Between Binary16.row d.magnitude c ∨ (31744 ≤ c ∧ 65520 ≤ d.magnitude)) := by
  obtain ⟨ordinary,sign,mantissa,exponent⟩ := Binary64.fromBits_finite shape
  have fields := f64ToF16Bits_fields value
  have small := Binary64.fractionField_lt value
  have bound := Binary64.exponentField_lt value
  have size : d.magnitude = d.mantissa * 2 ^ d.exponent := rfl
  rw [if_neg ordinary,← sign] at fields
  by_cases tiny : exponentField value ≤ 987
  · refine ⟨0,?_,.inl ⟨?_,fun _ => Even.zero,fun b step => absurd step (Nat.succ_ne_zero b).symm,
      fun _ _ _ => Even.zero⟩⟩
    · rw [fields]
      by_cases zero : exponentField value = 0
      · rw [if_pos zero]
        rfl
      · have alone := sign_or d.negative (show 0 < 2 ^ 15 by decide)
        rw [Nat.or_zero] at alone
        rw [if_neg zero,roundNormal_tiny (by omega) tiny]
        exact congrArg some alone
    · have low : (2 : ℚ) ^ d.exponent ≤ 2 ^ (-88 : Int) := zpow_le_zpow_right₀ one_le_two (by omega)
      have narrow : (d.mantissa : ℚ) ≤ 2 ^ 53 := by exact_mod_cast d.narrow.le
      have whole : d.magnitude ≤ 2 ^ 53 * 2 ^ (-88 : Int) := mul_le_mul narrow low (by positivity) (by positivity)
      have first : Binary16.row (0 + 1) = 2 ^ (-24 : Int) := by norm_num [Binary16.row]
      rw [Binary16.row_zero,first]
      norm_num at *
      linarith
  rw [if_neg (by omega)] at fields
  rw [Binary64.hiddenBit,if_neg (by omega)] at mantissa
  rw [mantissa,show d.exponent = (exponentField value : Int) - 1075 by omega] at size
  have scaled (s : Nat) {h : Int} (place : h = exponentField value - 1050 + s) :
      d.magnitude * 2 ^ s = (2 ^ 52 + fractionField value : Nat) * 2 ^ (h - 25) := by
    rw [size,mul_assoc,← zpow_natCast,← zpow_add₀ two_ne_zero,place]
    congr 2
    omega
  by_cases subnormal : exponentField value ≤ 1008
  · have large : 2 ^ 43 ≤ 2 ^ (1051 - exponentField value) := Nat.pow_le_pow_right (by decide) (by omega)
    have limit : Double.roundOff (2 ^ 52 + fractionField value) (1051 - exponentField value) ≤ 1024 :=
      Double.roundOff_le (by omega)
    have middle := Binary16.between_units le_rfl (.inl rfl) (by omega) (scaled (1051 - exponentField value) (h := (1 : Nat)) (by omega))
    refine ⟨_,?_,.inl middle⟩
    rw [fields,roundNormal_subnormal small (by omega) subnormal]
    rw [Nat.sub_self,Nat.zero_mul,Nat.zero_add,Nat.min_eq_left (by omega)]
    exact congrArg some (sign_or d.negative (by omega))
  by_cases normal : exponentField value < 1039
  · have middle := Binary16.between_units (h := exponentField value - 1008) (by omega) (.inr (by omega)) (by omega)
      (scaled 42 (by omega))
    refine ⟨_,?_,.inl middle⟩
    rw [fields,roundNormal_normal small (by omega) normal,Nat.sub_sub]
    exact congrArg some (sign_or d.negative (by omega))
  · refine ⟨31744,?_,.inr ⟨le_rfl,?_⟩⟩
    · rw [fields,roundNormal_large (by omega) (by omega)]
      exact congrArg some (sign_or d.negative (by decide))
    · have high : (2 : ℚ) ^ (-36 : Int) ≤ 2 ^ ((exponentField value : Int) - 1075) := zpow_le_zpow_right₀ one_le_two (by omega)
      have long : (2 : ℚ) ^ 52 ≤ (2 ^ 52 + fractionField value : Nat) := by exact_mod_cast Nat.le_add_right _ _
      have whole := mul_le_mul long high (by positivity) (by positivity)
      rw [← size] at whole
      norm_num at whole
      linarith

end encoding

section decoding

open Binary64 (ofDyadic_exact)

variable (half : BitVec 16)

theorem half_sign : decide (half &&& 0x8000 ≠ 0) = half.msb := by
  have field : (half &&& 0x8000).toNat = (half.toNat.testBit 15).toNat * 2 ^ 15 := by
    rw [BitVec.toNat_and]
    exact Nat.and_two_pow half.toNat 15
  rw [BitVec.testBit_toNat,← BitVec.msb_eq_getLsbD_last] at field
  cases sign : half.msb with
  | true =>
    rw [sign] at field
    apply decide_eq_true
    intro none
    rw [none] at field
    cases field
  | false =>
    rw [sign] at field
    apply decide_eq_false
    exact not_not.mpr (BitVec.eq_of_toNat_eq field)

theorem half_exponent : ((half >>> 10) &&& 0x1F).toNat = Binary16.unsigned half / 1024 := by
  have field : ((half >>> 10) &&& 0x1F).toNat = half.toNat / 2 ^ 10 % 2 ^ 5 := by
    rw [BitVec.toNat_and,BitVec.toNat_ushiftRight,Nat.shiftRight_eq_div_pow]
    exact Nat.and_two_pow_sub_one_eq_mod _ 5
  rw [field,Binary16.unsigned]
  omega

theorem half_fraction : (half &&& 0x03FF).toNat = Binary16.unsigned half % 1024 := by
  have field : (half &&& 0x03FF).toNat = half.toNat % 2 ^ 10 := by
    rw [BitVec.toNat_and]
    exact Nat.and_two_pow_sub_one_eq_mod _ 10
  rw [field,Binary16.unsigned]
  omega

variable {half}

/-- A double with this mantissa and exponent. -/
structure Exactly (b : Binary64) (negative : Bool) (m : Nat) (e : Int) : Prop where
  shape : ∃ d,b = .finite d ∧ d.negative = negative ∧ d.mantissa = m ∧ d.exponent = e

variable {b b' : Binary64} {negative negative' : Bool} {m m' : Nat} {e e' : Int}

theorem exactly_ofDyadic (negative : Bool) (narrow : m < 2 ^ 53) (low : -1074 ≤ e) (high : e ≤ 971) :
    Exactly (Binary64.ofDyadic negative m e) negative m e :=
  ⟨_,ofDyadic_exact negative narrow low high,rfl,rfl,rfl⟩

theorem Exactly.mul (first : Exactly b negative m e) (second : Exactly b' negative' m' e') (narrow : m * m' < 2 ^ 53)
    (low : -1074 ≤ e + e') (high : e + e' ≤ 971) : Exactly (b.mul b') (negative != negative') (m * m') (e + e') := by
  obtain ⟨d,rfl,rfl,rfl,rfl⟩ := first
  obtain ⟨d',rfl,rfl,rfl,rfl⟩ := second
  exact exactly_ofDyadic _ narrow low high

theorem Exactly.divPow {k : Nat} (first : Exactly b negative m e) (room : -1074 ≤ e - k) :
    Exactly (b.divPow k) negative m (e - k) := by
  obtain ⟨d,rfl,rfl,rfl,rfl⟩ := first
  rw [Binary64.divPow,Double.divPow,dif_pos room]
  exact ⟨_,rfl,rfl,rfl,rfl⟩

theorem Exactly.add (first : Exactly b false m e) (second : Exactly b' false m' e') (less : e' ≤ e) (low : -1074 ≤ e') (high : e' ≤ 971)
    (narrow : m * 2 ^ (e - e').toNat + m' < 2 ^ 53) : Exactly (b.add b') false (m * 2 ^ (e - e').toNat + m') e' := by
  obtain ⟨d,rfl,sign,rfl,rfl⟩ := first
  obtain ⟨d',rfl,sign',rfl,rfl⟩ := second
  have whole : Binary64.signedMantissa d (min d.exponent d'.exponent) + Binary64.signedMantissa d' (min d.exponent d'.exponent) =
      (d.mantissa * 2 ^ (d.exponent - d'.exponent).toNat + d'.mantissa : Nat) := by
    rw [Int.min_eq_right less,Binary64.signedMantissa,sign,if_neg Bool.false_ne_true,Binary64.signedMantissa,sign',
      if_neg Bool.false_ne_true,Int.sub_self,Int.toNat_zero,pow_zero,Nat.mul_one,Int.natCast_add]
  have positive : ¬((d.mantissa * 2 ^ (d.exponent - d'.exponent).toNat + d'.mantissa : Nat) : Int) < 0 := by omega
  rw [Binary64.add]
  simp only [whole,sign,sign',Bool.and_self,positive,decide_false,ite_self,Int.natAbs_natCast]
  rw [Int.min_eq_right less]
  exact exactly_ofDyadic _ narrow low high

/-- No operation of the decoder rounds. -/
theorem f16BitsToF64_finite (finite : Binary16.IsFinite half) : ∃ d,f16BitsToF64 half = .finite d ∧ d.negative = half.msb ∧
    d.magnitude = Binary16.row (Binary16.unsigned half) := by
  rw [Binary16.IsFinite] at finite
  rw [f16BitsToF64,half_sign,half_exponent,half_fraction,Binary16.row]
  have short : Binary16.unsigned half % 1024 < 1024 := Nat.mod_lt _ (by decide)
  have sign := exactly_ofDyadic half.msb (show 1 < 2 ^ 53 by decide) (show (-1074 : Int) ≤ 0 by decide) (by decide)
  have fraction := exactly_ofDyadic false (show Binary16.unsigned half % 1024 < 2 ^ 53 by omega) (show (-1074 : Int) ≤ 0 by decide)
    (by decide)
  have power (e : Int) (low : -1074 ≤ e) (high : e ≤ 971) := exactly_ofDyadic false (show 1 < 2 ^ 53 by decide) low high
  by_cases subnormal : Binary16.unsigned half < 1024
  · have product := (sign.mul fraction (by omega) (by decide) (by decide)).mul (power (-24) (by decide) (by decide)) (by omega)
      (by decide) (by decide)
    obtain ⟨d,shape,negative,mantissa,exponent⟩ := product
    rw [if_pos (by omega),if_pos subnormal]
    refine ⟨d,shape,by rw [negative]; simp,?_⟩
    rw [Double.magnitude,mantissa,exponent,Nat.mod_eq_of_lt subnormal,Nat.one_mul,Nat.mul_one]
    rfl
  · have one := power 0 (by decide) (by decide)
    have sum := one.add (fraction.divPow (show -1074 ≤ (0 : Int) - (10 : Nat) by decide)) (by decide) (by decide) (by decide)
      (show 1 * 1024 + Binary16.unsigned half % 1024 < 2 ^ 53 by omega)
    have product := (sign.mul sum (show 1 * (1 * 1024 + Binary16.unsigned half % 1024) < 2 ^ 53 by omega) (by decide) (by decide)).mul
      (power ((Binary16.unsigned half / 1024 : Nat) - 15) (by omega) (by omega))
      (show 1 * (1 * 1024 + Binary16.unsigned half % 1024) * 1 < 2 ^ 53 by omega) (by omega) (by omega)
    obtain ⟨d,shape,negative,mantissa,exponent⟩ := product
    rw [if_neg (by omega),if_neg (by omega),if_neg subnormal]
    refine ⟨d,shape,by rw [negative]; simp,?_⟩
    have whole : d.mantissa = 1024 + Binary16.unsigned half % 1024 := by simpa using mantissa
    have place : d.exponent = (Binary16.unsigned half / 1024 : Nat) - 25 := by omega
    rw [Double.magnitude,whole,place]

theorem f16BitsToF64_infinite (infinite : Binary16.unsigned half = 31744) : f16BitsToF64 half = .infinite half.msb := by
  rw [f16BitsToF64,half_sign,half_exponent,half_fraction,infinite]
  rw [ofDyadic_exact half.msb (show 1 < 2 ^ 53 by decide) (show (-1074 : Int) ≤ 0 by decide) (by decide)]
  rw [Binary64.ofNat,ofDyadic_exact false (show 31744 % 1024 < 2 ^ 53 by decide) (show (-1074 : Int) ≤ 0 by decide) (by decide)]
  simp [notZero,Binary64.mul]

end decoding

theorem f64ToF16Bits_infinite {value : BitVec 64} {negative : Bool} (shape : Binary64.fromBits value = .infinite negative) :
    f64ToF16Bits value = some (Binary16.infinity negative) := by
  rw [Binary64.fromBits] at shape
  split at shape
  · rename_i special
    split at shape
    · rename_i none
      cases shape
      rw [f64ToF16Bits_fields,if_pos special,if_pos none]
      rfl
    · cases shape
  · cases shape

/-- The rounding that a half-precision encoding of a double has to do. -/
def Rounded (half : BitVec 16) : Binary64 → Prop
  | .nan => Binary16.IsNaN half
  | .infinite negative => half = Binary16.infinity negative
  | .finite d => half.msb = d.negative ∧ (d.magnitude ≤ 2 ^ (-25 : Int) → half = Binary16.zero d.negative) ∧
      (65520 ≤ d.magnitude → half = Binary16.infinity d.negative) ∧ (d.magnitude < 65520 → Binary16.IsFinite half ∧
        ∀ half',Binary16.IsFinite half' → |d.value - Binary16.value half| ≤ |d.value - Binary16.value half'| ∧
          (|d.value - Binary16.value half| = |d.value - Binary16.value half'| →
            Binary16.value half' = Binary16.value half ∨ half.toNat % 2 = 0))

theorem f64ToF16Bits_rounds (value : BitVec 64) : ∃ half,f64ToF16Bits value = some half ∧ Rounded half (Binary64.fromBits value) := by
  cases shape : Binary64.fromBits value with
  | nan =>
    rw [Binary64.fromBits] at shape
    split at shape
    · rename_i special
      split at shape
      · cases shape
      · rename_i payload
        rw [f64ToF16Bits_fields,if_pos special,if_neg payload]
        refine ⟨_,rfl,?_⟩
        rw [Rounded,Binary16.IsNaN,(Binary16.pack_fields _ (by decide)).2]
        decide
    · cases shape
  | infinite negative => exact ⟨_,f64ToF16Bits_infinite shape,rfl⟩
  | finite d =>
    obtain ⟨c,encoded,place⟩ := f64ToF16Bits_finite shape
    obtain ⟨sign,size⟩ := Binary16.pack_fields d.negative (show min c 31744 < 2 ^ 15 by omega)
    refine ⟨_,encoded,sign,fun tiny => ?_,fun large => ?_,fun small => ?_⟩
    · obtain middle | ⟨-,large⟩ := place
      · rw [Binary16.underflow middle tiny]
        rfl
      · norm_num at tiny
        linarith
    · have infinite : 31744 ≤ c := by
        obtain middle | ⟨infinite,-⟩ := place
        · exact (Binary16.overflow_iff middle).mpr large
        · exact infinite
      rw [Nat.min_eq_right infinite]
      rfl
    · obtain middle | ⟨-,large⟩ := place
      · have finite : c < 31744 := not_le.mp fun infinite => absurd ((Binary16.overflow_iff middle).mp infinite) (not_le.mpr small)
        rw [Nat.min_eq_left finite.le] at *
        refine ⟨by rw [Binary16.IsFinite,size]; exact finite,fun half' _ => ?_⟩
        have absolute : |d.value| = d.magnitude := by
          rw [Double.value]
          split
          · rw [abs_neg,abs_of_nonneg Double.magnitude_nonneg]
          · exact abs_of_nonneg Double.magnitude_nonneg
        have positive := @Double.magnitude_nonneg d
        have nearest := middle.nearest Binary16.row_rising
        rw [← absolute,← size] at nearest
        apply Binary16.nearest_signed _ _ nearest
        · intro above
          rw [sign]
          by_contra negative
          rw [Double.value,if_pos (Bool.not_eq_false _ ▸ negative)] at above
          linarith
        · intro below
          rw [sign]
          by_contra other
          rw [Double.value,if_neg other] at below
          linarith
      · exact absurd large (not_le.mpr small)

/-- Every double is rounded correctly, nothing overflows on the way, and a decoded number is encoded as it was. -/
theorem halfPrecision_exact : (∀ value,∃ half,f64ToF16Bits value = some half ∧ Rounded half (Binary64.fromBits value)) ∧
    ∀ half,¬Binary16.IsNaN half → f64ToF16Bits (Binary64.toBits (f16BitsToF64 half)) = some half := by
  refine ⟨f64ToF16Bits_rounds,fun half ordinary => ?_⟩
  rw [Binary16.IsNaN,not_lt] at ordinary
  by_cases finite : Binary16.IsFinite half
  · obtain ⟨d,decoded,sign,size⟩ := f16BitsToF64_finite finite
    obtain ⟨d',shape,sign',size'⟩ := Binary64.fromBits_toBits d
    obtain ⟨c,encoded,place⟩ := f64ToF16Bits_finite shape
    rw [size',size] at place
    obtain middle | ⟨-,large⟩ := place
    · rw [decoded,encoded,Binary16.place_eq middle,Nat.min_eq_left finite.le,sign',sign,Binary16.pack_unsigned]
    · have last := Binary16.row_rising.monotone (Nat.le_of_lt_succ finite)
      rw [Binary16.row_last.1] at last
      linarith
  · have infinite : Binary16.unsigned half = 31744 := by
      rw [Binary16.IsFinite] at finite
      omega
    obtain ⟨sign,exponent,fraction⟩ := Binary64.pack_fields half.msb (show 2047 < 2048 by decide) (show 0 < 2 ^ 52 by decide)
    have whole := Binary16.pack_unsigned half
    rw [infinite] at whole
    rw [f16BitsToF64_infinite infinite,Binary64.toBits,f64ToF16Bits_fields,if_pos exponent,if_pos fraction,sign,whole]

end Perry.Runtime.TypedarrayHalf
