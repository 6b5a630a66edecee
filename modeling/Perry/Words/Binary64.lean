import Mathlib.Data.Nat.Size
import Perry.Words.Doubles

/-! The doubles that bit patterns denote. -/

namespace Perry.Words

inductive Binary64 where
  | nan
  | infinite (negative : Bool)
  | finite (d : Double)

namespace Binary64

def exponentField (bits : BitVec 64) : Nat := bits.toNat / 2 ^ 52 % 2 ^ 11

def fractionField (bits : BitVec 64) : Nat := bits.toNat % 2 ^ 52

theorem fractionField_lt (bits : BitVec 64) : fractionField bits < 2 ^ 52 := Nat.mod_lt _ (by decide)

theorem exponentField_lt (bits : BitVec 64) : exponentField bits < 2048 := Nat.mod_lt _ (by decide)

/-- The hidden bit in front of the fraction. -/
def hiddenBit (bits : BitVec 64) : Nat := if exponentField bits = 0 then 0 else 2 ^ 52

/-- `f64::from_bits`. -/
def fromBits (bits : BitVec 64) : Binary64 :=
  if special : exponentField bits = 2047 then if fractionField bits = 0 then .infinite bits.msb else .nan
  else .finite
    { negative := bits.msb
      mantissa := hiddenBit bits + fractionField bits
      exponent := max (exponentField bits) 1 - 1075
      narrow := by
        have := fractionField_lt bits
        unfold hiddenBit
        split <;> omega
      low := by omega
      high := by
        have := exponentField_lt bits
        omega }

variable {bits bits' : BitVec 64} {d d' : Double}

theorem toNat_fields (bits : BitVec 64) :
    bits.toNat = (if bits.msb then 2 ^ 63 else 0) + exponentField bits * 2 ^ 52 + fractionField bits := by
  have small := bits.isLt
  rw [exponentField,fractionField,BitVec.msb_eq_decide]
  simp only [decide_eq_true_eq]
  split <;> omega

theorem fields_ext (sign : bits.msb = bits'.msb) (exponent : exponentField bits = exponentField bits')
    (fraction : fractionField bits = fractionField bits') : bits = bits' := by
  apply BitVec.eq_of_toNat_eq
  rw [toNat_fields bits,toNat_fields bits',sign,exponent,fraction]

theorem fromBits_finite (shape : fromBits bits = .finite d) : exponentField bits ≠ 2047 ∧ d.negative = bits.msb ∧
    d.mantissa = hiddenBit bits + fractionField bits ∧ d.exponent = max (exponentField bits) 1 - 1075 := by
  unfold fromBits at shape
  split at shape
  · split at shape <;> cases shape
  · next ordinary =>
    cases shape
    exact ⟨ordinary,rfl,rfl,rfl⟩

theorem fromBits_ordinary (ordinary : exponentField bits ≠ 2047) : ∃ d,fromBits bits = .finite d := by
  rw [fromBits,dif_neg ordinary]
  exact ⟨_,rfl⟩

/-- The mantissa is as long as it can be, unless the exponent is the least. -/
theorem fromBits_normal (shape : fromBits bits = .finite d) : d.exponent = -1074 ∨ 2 ^ 52 ≤ d.mantissa := by
  obtain ⟨-,-,mantissa,exponent⟩ := fromBits_finite shape
  rw [hiddenBit] at mantissa
  split at mantissa
  · left
    omega
  · right
    omega

theorem fromBits_inj (shape : fromBits bits = .finite d) (shape' : fromBits bits' = .finite d) : bits = bits' := by
  obtain ⟨-,sign,mantissa,exponent⟩ := fromBits_finite shape
  obtain ⟨-,sign',mantissa',exponent'⟩ := fromBits_finite shape'
  have small := fractionField_lt bits
  have small' := fractionField_lt bits'
  rw [hiddenBit] at mantissa mantissa'
  apply fields_ext (sign.symm.trans sign')
  · split at mantissa <;> split at mantissa' <;> omega
  · split at mantissa <;> split at mantissa' <;> omega

/-- Two forms of one number, both as long as they can be, are the same. -/
theorem mantissa_eq {m m' : Nat} {e e' : Int} (narrow : m' < 2 ^ 53) (normal : e = -1074 ∨ 2 ^ 52 ≤ m) (low : -1074 ≤ e')
    (less : e' ≤ e) (same : (m : ℚ) * 2 ^ e = m' * 2 ^ e') : e = e' := by
  obtain ⟨gap,shape⟩ := Int.eq_ofNat_of_zero_le (Int.sub_nonneg.mpr less)
  have split : (2 : ℚ) ^ e = 2 ^ gap * 2 ^ e' := by
    rw [← zpow_natCast,← zpow_add₀ two_ne_zero]
    congr 1
    omega
  have whole : m * 2 ^ gap = m' := by
    rw [split,← mul_assoc] at same
    have cancelled := mul_right_cancel₀ (zpow_ne_zero e' two_ne_zero) same
    exact_mod_cast cancelled
  obtain least | long := normal
  · omega
  · cases gap with
    | zero => omega
    | succ gap =>
      have factor := Nat.two_pow_pos gap
      have doubled : m * 2 ^ (gap + 1) = 2 * m * 2 ^ gap := by ring
      have large := Nat.le_mul_of_pos_right (2 * m) factor
      omega

theorem sign_eq (same : d.value = d'.value) (some : d.value ≠ 0) : d.negative = d'.negative ∧ d.magnitude = d'.magnitude := by
  have positive : 0 ≤ d.magnitude := Double.magnitude_nonneg
  have positive' : 0 ≤ d'.magnitude := Double.magnitude_nonneg
  rw [Double.value] at some
  rw [Double.value,Double.value] at same
  by_cases sign : d.negative = true
  · by_cases sign' : d'.negative = true
    · rw [if_pos sign,if_pos sign'] at same
      exact ⟨sign.trans sign'.symm,neg_inj.mp same⟩
    · rw [if_pos sign,if_neg sign'] at same
      rw [if_pos sign] at some
      exact absurd (by linarith) some
  · by_cases sign' : d'.negative = true
    · rw [if_neg sign,if_pos sign'] at same
      rw [if_neg sign] at some
      exact absurd (by linarith) some
    · rw [if_neg sign,if_neg sign'] at same
      rw [Bool.not_eq_true] at sign sign'
      exact ⟨sign.trans sign'.symm,same⟩

/-- A number other than zero has one bit pattern. -/
theorem fromBits_value_inj (shape : fromBits bits = .finite d) (shape' : fromBits bits' = .finite d')
    (same : d.value = d'.value) (some : d.value ≠ 0) : bits = bits' := by
  obtain ⟨sign,size⟩ := sign_eq same some
  rw [Double.magnitude,Double.magnitude] at size
  have exponent : d.exponent = d'.exponent := by
    obtain less | more := le_total d'.exponent d.exponent
    · exact mantissa_eq d'.narrow (fromBits_normal shape) d'.low less size
    · exact (mantissa_eq d.narrow (fromBits_normal shape') d.low more size.symm).symm
  rw [exponent] at size
  have mantissa : d.mantissa = d'.mantissa := by
    have cancelled := mul_right_cancel₀ (zpow_ne_zero _ two_ne_zero) size
    exact_mod_cast cancelled
  have whole : d = d' := by
    cases d
    cases d'
    congr
  exact fromBits_inj shape (whole ▸ shape')

/-- The two bit patterns of zero. -/
def zero (negative : Bool) : BitVec 64 := BitVec.ofNat 64 (if negative then 2 ^ 63 else 0)

theorem fromBits_zero (shape : fromBits bits = .finite d) (none : d.value = 0) : bits = zero false ∨ bits = zero true := by
  obtain ⟨-,-,mantissa,-⟩ := fromBits_finite shape
  have empty : d.mantissa = 0 := by
    have size : d.magnitude = 0 := by
      rw [Double.value] at none
      split at none
      · exact neg_eq_zero.mp none
      · exact none
    rw [Double.magnitude,mul_eq_zero,or_iff_left (zpow_ne_zero _ two_ne_zero)] at size
    exact_mod_cast size
  have whole := toNat_fields bits
  rw [hiddenBit] at mantissa
  have exponent : exponentField bits = 0 := by
    by_contra some
    rw [if_neg some] at mantissa
    omega
  rw [exponent,show fractionField bits = 0 by omega] at whole
  by_cases sign : bits.msb = true
  · rw [if_pos sign] at whole
    exact .inr (BitVec.eq_of_toNat_eq whole)
  · rw [if_neg sign] at whole
    exact .inl (BitVec.eq_of_toNat_eq whole)

section rounding

/-- A number whose mantissa is short enough and whose exponent is not too low. -/
def placed (negative : Bool) (m : Nat) (e : Int) (narrow : m < 2 ^ 53) (low : -1074 ≤ e) : Binary64 :=
  if high : e ≤ 971 then .finite ⟨negative,m,e,narrow,low,high⟩
  else if fits : m * 2 ^ (e - 971).toNat < 2 ^ 53 then
    .finite ⟨negative,m * 2 ^ (e - 971).toNat,971,fits,Double.lowest_le_highest,by decide⟩
  else .infinite negative

/-- How many bits of a mantissa have to go. -/
def excess (m : Nat) (e : Int) : Int := max (m.size - 53) (-1074 - e)

/-- The double that is nearest to a dyadic number, ties to even. -/
def ofDyadic (negative : Bool) (m : Nat) (e : Int) : Binary64 :=
  if exact : excess m e ≤ 0 then
    placed negative m e (Nat.size_le.mp (by unfold excess at exact; omega)) (by unfold excess at exact; omega)
  else if narrow : Double.roundOff m (excess m e).toNat < 2 ^ 53 then
    placed negative (Double.roundOff m (excess m e).toNat) (e + excess m e) narrow (by unfold excess; omega)
  else placed negative (2 ^ 52) (e + excess m e + 1) (by decide) (by unfold excess; omega)

theorem ofDyadic_exact (negative : Bool) {m : Nat} {e : Int} (narrow : m < 2 ^ 53) (low : -1074 ≤ e) (high : e ≤ 971) :
    ofDyadic negative m e = .finite ⟨negative,m,e,narrow,low,high⟩ := by
  have short := Nat.size_le.mpr narrow
  rw [ofDyadic,dif_pos (by unfold excess; omega),placed,dif_pos high]

/-- An integer as a double. -/
def ofNat (n : Nat) : Binary64 := ofDyadic false n 0

/-- `f64::powi` of two. -/
def twoPowi (e : Int) : Binary64 := ofDyadic false 1 e

def mul : Binary64 → Binary64 → Binary64
  | .finite d,.finite d' => ofDyadic (d.negative != d'.negative) (d.mantissa * d'.mantissa) (d.exponent + d'.exponent)
  | .infinite negative,.finite d => if d.mantissa = 0 then .nan else .infinite (negative != d.negative)
  | .finite d,.infinite negative => if d.mantissa = 0 then .nan else .infinite (d.negative != negative)
  | .infinite negative,.infinite negative' => .infinite (negative != negative')
  | .nan,_ => .nan
  | _,.nan => .nan

def signedMantissa (d : Double) (e : Int) : Int :=
  if d.negative then -(d.mantissa * 2 ^ (d.exponent - e).toNat : Nat) else (d.mantissa * 2 ^ (d.exponent - e).toNat : Nat)

def add : Binary64 → Binary64 → Binary64
  | .finite d,.finite d' =>
    let e := min d.exponent d'.exponent
    let sum := signedMantissa d e + signedMantissa d' e
    ofDyadic (if sum = 0 then d.negative && d'.negative else decide (sum < 0)) sum.natAbs e
  | .infinite negative,.finite _ => .infinite negative
  | .finite _,.infinite negative => .infinite negative
  | .infinite negative,.infinite negative' => if negative = negative' then .infinite negative else .nan
  | .nan,_ => .nan
  | _,.nan => .nan

/-- The quotient by a power of two. -/
def divPow (k : Nat) : Binary64 → Binary64
  | .finite d => .finite (d.divPow k)
  | x => x

end rounding

section encoding

/-- By how many places a mantissa can be moved up. -/
def headroom (d : Double) : Nat := min (53 - d.mantissa.size) (d.exponent + 1074).toNat

def longMantissa (d : Double) : Nat := d.mantissa * 2 ^ headroom d

def pack (negative : Bool) (exponent fraction : Nat) : BitVec 64 :=
  BitVec.ofNat 64 ((if negative then 2 ^ 63 else 0) + exponent * 2 ^ 52 + fraction)

/-- `f64::to_bits`. -/
def toBits : Binary64 → BitVec 64
  | .nan => pack false 2047 (2 ^ 51)
  | .infinite negative => pack negative 2047 0
  | .finite d =>
    pack d.negative (if longMantissa d < 2 ^ 52 then 0 else (d.exponent - headroom d + 1075).toNat) (longMantissa d % 2 ^ 52)

theorem pack_fields (negative : Bool) {exponent fraction : Nat} (narrow : exponent < 2048) (short : fraction < 2 ^ 52) :
    (pack negative exponent fraction).msb = negative ∧ exponentField (pack negative exponent fraction) = exponent ∧
      fractionField (pack negative exponent fraction) = fraction := by
  have whole : (pack negative exponent fraction).toNat = (if negative then 2 ^ 63 else 0) + exponent * 2 ^ 52 + fraction := by
    rw [pack,BitVec.toNat_ofNat]
    apply Nat.mod_eq_of_lt
    split <;> omega
  rw [exponentField,fractionField,BitVec.msb_eq_decide,whole]
  cases negative with
  | true =>
    simp only [if_true]
    exact ⟨decide_eq_true (by omega),by omega,by omega⟩
  | false =>
    simp only [Bool.false_eq_true,if_false]
    exact ⟨decide_eq_false (by omega),by omega,by omega⟩

theorem longMantissa_lt (d : Double) : longMantissa d < 2 ^ 53 := by
  have short := Nat.lt_size_self d.mantissa
  have room : headroom d ≤ 53 - d.mantissa.size := Nat.min_le_left _ _
  have bound := Nat.size_le.mpr d.narrow
  calc longMantissa d < 2 ^ d.mantissa.size * 2 ^ headroom d := Nat.mul_lt_mul_of_pos_right short (Nat.two_pow_pos _)
    _ = 2 ^ (d.mantissa.size + headroom d) := (pow_add 2 _ _).symm
    _ ≤ 2 ^ 53 := Nat.pow_le_pow_right (by decide) (by omega)

/-- A mantissa that stays short has the least exponent, or is zero. -/
theorem longMantissa_short {d : Double} (short : longMantissa d < 2 ^ 52) : d.exponent - headroom d = -1074 ∨ d.mantissa = 0 := by
  by_contra neither
  rw [not_or] at neither
  have low := d.low
  have room : headroom d = 53 - d.mantissa.size := by
    have := neither.1
    unfold headroom at *
    omega
  have some : 0 < d.mantissa := Nat.pos_of_ne_zero neither.2
  have positive := Nat.size_pos.mpr some
  have bound := Nat.size_le.mpr d.narrow
  have large : 2 ^ (d.mantissa.size - 1) ≤ d.mantissa := Nat.lt_size.mp (by omega)
  have whole : 2 ^ 52 ≤ longMantissa d := by
    calc 2 ^ 52 = 2 ^ (d.mantissa.size - 1) * 2 ^ headroom d := by rw [← pow_add]; congr 1; omega
      _ ≤ longMantissa d := Nat.mul_le_mul_right _ large
  omega

theorem fromBits_toBits (d : Double) : ∃ d',fromBits (toBits (.finite d)) = .finite d' ∧ d'.negative = d.negative ∧
    d'.magnitude = d.magnitude := by
  have narrow := longMantissa_lt d
  have scaled : d.magnitude = longMantissa d * 2 ^ (d.exponent - headroom d) := by
    rw [Double.magnitude,longMantissa,zpow_sub₀ two_ne_zero,zpow_natCast]
    push_cast
    field_simp
  have low : (headroom d : Int) ≤ d.exponent + 1074 := by
    have := d.low
    unfold headroom
    omega
  rw [toBits]
  by_cases short : longMantissa d < 2 ^ 52
  · rw [if_pos short,Nat.mod_eq_of_lt short]
    obtain ⟨sign,exponent,fraction⟩ := @pack_fields d.negative 0 _ (by decide) short
    obtain ⟨d',shape⟩ := @fromBits_ordinary (pack d.negative 0 (longMantissa d)) (by rw [exponent]; decide)
    obtain ⟨-,negative,mantissa,low'⟩ := fromBits_finite shape
    rw [hiddenBit,exponent,if_pos rfl,fraction,Nat.zero_add] at mantissa
    rw [exponent] at low'
    refine ⟨d',shape,negative.trans sign,?_⟩
    rw [scaled,Double.magnitude,mantissa,low']
    obtain least | zero := longMantissa_short short
    · rw [least]
      rfl
    · rw [longMantissa,zero]
      simp
  · have high := d.high
    have field : (d.exponent - headroom d + 1075).toNat < 2048 := by omega
    rw [if_neg short]
    obtain ⟨sign,exponent,fraction⟩ := pack_fields d.negative field (Nat.mod_lt (longMantissa d) (by decide : 0 < 2 ^ 52))
    obtain ⟨d',shape⟩ := @fromBits_ordinary (pack d.negative _ _) (by rw [exponent]; omega)
    obtain ⟨-,negative,mantissa,low'⟩ := fromBits_finite shape
    rw [hiddenBit,exponent,if_neg (by omega),fraction] at mantissa
    rw [exponent] at low'
    refine ⟨d',shape,negative.trans sign,?_⟩
    have whole : d'.mantissa = longMantissa d := by omega
    have same : d'.exponent = d.exponent - headroom d := by omega
    rw [scaled,Double.magnitude,whole,same]

end encoding

end Binary64

end Perry.Words
