import Mathlib.Data.Rat.Floor
import Mathlib.Tactic

/-! Finite doubles as dyadic numbers: a sign, a mantissa of at most 53 bits and an exponent. -/
namespace Perry.Words

structure Double where
  negative : Bool
  mantissa : Nat
  exponent : Int
  narrow : mantissa < 2 ^ 53
  low : -1074 ≤ exponent
  high : exponent ≤ 971

namespace Double

variable (d : Double)

def magnitude : ℚ := d.mantissa * 2 ^ d.exponent

def value : ℚ := if d.negative then -d.magnitude else d.magnitude

def abs : Double := { d with negative := false }

/-- The mantissa bits below the point. -/
def fractionUnit : Nat := 2 ^ (-d.exponent).toNat

theorem fractionUnit_pos : 0 < d.fractionUnit := Nat.two_pow_pos _

theorem floor_narrow {m : Nat} (narrow : m < 2 ^ 53) {unit : Nat} (positive : 0 < unit) (negative : Bool) :
    m / unit + (if negative ∧ m % unit ≠ 0 then 1 else 0) < 2 ^ 53 := by
  by_cases whole : m % unit = 0
  · have bound := Nat.div_le_self m unit
    simp only [whole,ne_eq,not_true_eq_false,and_false,if_false]
    omega
  · have some : 0 < m := Nat.pos_of_ne_zero fun empty => whole (by rw [empty,Nat.zero_mod])
    have several : 1 < unit := by
      by_contra one
      have unit_eq : unit = 1 := by omega
      exact whole (by rw [unit_eq,Nat.mod_one])
    have part := Nat.div_lt_self some several
    split <;> omega

/-- The largest integer that is not above. -/
def floor : Double :=
  if 0 ≤ d.exponent then d
  else ⟨d.negative,d.mantissa / d.fractionUnit + if d.negative ∧ d.mantissa % d.fractionUnit ≠ 0 then 1 else 0,0,
    floor_narrow d.narrow d.fractionUnit_pos d.negative,by decide,by decide⟩

/-- An integer. -/
def whole (negative : Bool) (m : Nat) (narrow : m < 2 ^ 53) : Double := ⟨negative,m,0,narrow,by decide,by decide⟩

theorem value_whole (negative : Bool) {m : Nat} (narrow : m < 2 ^ 53) :
    (whole negative m narrow).value = if negative then -(m : ℚ) else m := by
  simp [value,magnitude,whole]

theorem lowest_le_highest : (-1074 : Int) ≤ 971 := by decide

/-- The remainder by a power of two. -/
def remPow (k : Nat) : Double :=
  { d with
    mantissa := if k ≤ d.exponent then 0 else d.mantissa % 2 ^ (k - d.exponent).toNat
    narrow := by
      split
      · decide
      · exact Nat.lt_of_le_of_lt (Nat.mod_le _ _) d.narrow }

/-- The mantissa without its last bits, rounded to nearest, ties to even. -/
def roundOff (m s : Nat) : Nat :=
  if 2 ^ s < 2 * (m % 2 ^ s) ∨ (2 ^ s = 2 * (m % 2 ^ s) ∧ m / 2 ^ s % 2 = 1) then m / 2 ^ s + 1 else m / 2 ^ s

theorem roundOff_lt {m : Nat} (narrow : m < 2 ^ 53) (s : Nat) (some : 0 < s) : roundOff m s < 2 ^ 53 := by
  have half : m / 2 ^ s ≤ m / 2 := Nat.div_le_div_left (Nat.le_self_pow (by omega) 2) (by decide)
  unfold roundOff
  split <;> omega

/-- The quotient by a power of two. -/
def divPow (k : Nat) : Double :=
  if room : -1074 ≤ d.exponent - k then
    { d with exponent := d.exponent - k, low := room, high := by have := d.high; omega }
  else
    ⟨d.negative,roundOff d.mantissa (-1074 - (d.exponent - k)).toNat,-1074,
      roundOff_lt d.narrow _ (by omega),by decide,by decide⟩

/-- The conversion to an unsigned 64-bit integer, which saturates. -/
def toU64 : Nat := min (2 ^ 64 - 1) ⌊d.value⌋.toNat

variable {d}

theorem magnitude_nonneg : 0 ≤ d.magnitude := by
  unfold magnitude
  positivity

theorem magnitude_whole (whole : 0 ≤ d.exponent) : d.magnitude = (d.mantissa * 2 ^ d.exponent.toNat : Nat) := by
  obtain ⟨e,shape⟩ := Int.eq_ofNat_of_zero_le whole
  rw [magnitude,shape]
  push_cast
  rw [Int.toNat_natCast,zpow_natCast]

theorem magnitude_fraction (part : d.exponent ≤ 0) : d.magnitude = (d.mantissa : ℚ) / d.fractionUnit := by
  obtain ⟨s,shape⟩ := Int.eq_ofNat_of_zero_le (Int.neg_nonneg.mpr part)
  have exponent : d.exponent = -(s : Int) := by omega
  rw [magnitude,fractionUnit,shape,exponent,zpow_neg,zpow_natCast,Int.toNat_natCast,div_eq_mul_inv]
  push_cast
  rfl

/-- A fraction is its quotient and a rest below one. -/
theorem div_split (m : Nat) {unit : Nat} (positive : 0 < unit) :
    (m : ℚ) / unit = (m / unit : Nat) + ((m % unit : Nat) : ℚ) / unit ∧ ((m % unit : Nat) : ℚ) / unit < 1 ∧
      (0 : ℚ) ≤ ((m % unit : Nat) : ℚ) / unit ∧ (((m % unit : Nat) : ℚ) / unit = 0 ↔ m % unit = 0) := by
  have unitPositive : (0 : ℚ) < unit := by exact_mod_cast positive
  have split : (m : ℚ) = unit * (m / unit : Nat) + (m % unit : Nat) := by exact_mod_cast (Nat.div_add_mod m unit).symm
  refine ⟨?_,?_,by positivity,?_⟩
  · conv_lhs => rw [split]
    field_simp
  · rw [div_lt_one unitPositive]
    exact_mod_cast Nat.mod_lt m positive
  · rw [div_eq_zero_iff]
    constructor
    · rintro (zero | zero)
      · exact_mod_cast zero
      · exact absurd zero (ne_of_gt unitPositive)
    · intro zero
      rw [zero]
      simp

theorem value_floor : d.floor.value = ⌊d.value⌋ := by
  unfold floor
  split
  · rename_i whole
    rw [value,magnitude_whole whole]
    split
    · rw [← Int.cast_natCast,← Int.cast_neg,Int.floor_intCast]
    · rw [← Int.cast_natCast,Int.floor_intCast]
  · rename_i part
    obtain ⟨split,below,above,zero⟩ := div_split d.mantissa d.fractionUnit_pos
    rw [← magnitude_fraction (by omega)] at split
    generalize ((d.mantissa % d.fractionUnit : Nat) : ℚ) / d.fractionUnit = rest at *
    have left (n : Nat) (narrow low high) : (Double.mk d.negative n 0 narrow low high).value =
        ((if d.negative then -(n : Int) else n : Int) : ℚ) := by
      simp only [value,magnitude,zpow_zero,mul_one]
      split <;> simp
    rw [left,value,Int.cast_inj,eq_comm,Int.floor_eq_iff,split]
    generalize d.mantissa / d.fractionUnit = quotient at *
    cases d.negative with
    | false => simp [below,above]
    | true =>
      by_cases whole : d.mantissa % d.fractionUnit = 0
      · have none := zero.mpr whole
        simp [whole,none]
      · have some : 0 < rest := lt_of_le_of_ne above fun none => whole (zero.mp none.symm)
        simp only [whole,if_true,ne_eq,not_false_eq_true,and_self]
        push_cast
        constructor <;> linarith

theorem value_abs : d.abs.value = d.magnitude := rfl

section integral

variable {n : Nat} (positive : d.negative = false) (integral : d.value = n)

include positive integral

theorem magnitude_of_integral : d.magnitude = n := by
  rw [← integral,value,positive]
  rfl

/-- An integer of at least one leaves the exponent room for a quotient. -/
theorem exponent_of_integral (some : 1 ≤ n) : -53 ≤ d.exponent := by
  by_contra low
  have split := magnitude_of_integral positive integral
  rw [magnitude_fraction (by omega),div_eq_iff (by exact_mod_cast d.fractionUnit_pos.ne')] at split
  have whole : d.mantissa = n * d.fractionUnit := by exact_mod_cast split
  have unit : 2 ^ 53 ≤ d.fractionUnit := Nat.pow_le_pow_right (by decide) (by omega)
  have large := Nat.mul_le_mul some unit
  have narrow := d.narrow
  omega

theorem value_divPow {k : Nat} (some : 1 ≤ n) (near : k ≤ 1000) : (d.divPow k).value = (n : ℚ) / (2 ^ k : Nat) ∧
    (d.divPow k).negative = false := by
  have room : -1074 ≤ d.exponent - k := by
    have exponent := exponent_of_integral positive integral some
    omega
  rw [divPow,dif_pos room]
  refine ⟨?_,positive⟩
  have split := magnitude_of_integral positive integral
  rw [value,positive,← split,magnitude,magnitude]
  simp only [Bool.false_eq_true,if_false]
  rw [zpow_sub₀ (by norm_num),zpow_natCast]
  push_cast
  ring

theorem floor_divPow {k : Nat} (some : 1 ≤ n) (near : k ≤ 1000) : (d.divPow k).floor.value = (n / 2 ^ k : Nat) ∧
    (d.divPow k).floor.negative = false := by
  obtain ⟨quotient,sign⟩ := value_divPow positive integral some near
  constructor
  · rw [value_floor,quotient]
    have whole : ⌊(n : ℚ) / (2 ^ k : Nat)⌋ = ((n / 2 ^ k : Nat) : Int) := Rat.floor_natCast_div_natCast n (2 ^ k)
    rw [whole]
    rfl
  · unfold floor
    split
    · exact sign
    · exact sign

theorem value_remPow {k : Nat} : (d.remPow k).value = (n % 2 ^ k : Nat) := by
  have split := magnitude_of_integral positive integral
  rw [value,remPow]
  simp only [positive,Bool.false_eq_true,if_false]
  rw [magnitude]
  dsimp only
  rcases Int.le_total 0 d.exponent with whole | part
  · obtain ⟨e,shape⟩ := Int.eq_ofNat_of_zero_le whole
    rw [magnitude_whole whole,shape,Int.toNat_natCast] at split
    have number : n = d.mantissa * 2 ^ e := by exact_mod_cast split.symm
    rw [shape,zpow_natCast,number]
    split
    · rename_i far
      have factor : 2 ^ k ∣ d.mantissa * 2 ^ e := Dvd.dvd.mul_left (pow_dvd_pow 2 (by omega)) _
      rw [Nat.mod_eq_zero_of_dvd factor]
      simp
    · rename_i near
      have gap : ((k : Int) - (e : Int)).toNat + e = k := by omega
      have scaled : 2 ^ k = 2 ^ ((k : Int) - (e : Int)).toNat * 2 ^ e := by rw [← pow_add,gap]
      rw [scaled,Nat.mul_mod_mul_right]
      push_cast
      rfl
  · have unit := d.fractionUnit_pos
    rw [magnitude_fraction part,div_eq_iff (by exact_mod_cast unit.ne')] at split
    have number : d.mantissa = n * d.fractionUnit := by exact_mod_cast split
    have gap : ((k : Int) - d.exponent).toNat = k + (-d.exponent).toNat := by omega
    have inverse : (2 : ℚ) ^ d.exponent = (d.fractionUnit : ℚ)⁻¹ := by
      have exponent : d.exponent = -((-d.exponent).toNat : Int) := by omega
      rw [fractionUnit]
      conv_lhs => rw [exponent]
      rw [zpow_neg,zpow_natCast]
      push_cast
      rfl
    have unitPositive : (d.fractionUnit : ℚ) ≠ 0 := by exact_mod_cast unit.ne'
    by_cases far : (k : Int) ≤ d.exponent
    · have zero : k = 0 := by omega
      rw [if_pos far,zero]
      simp [Nat.mod_one]
    · rw [if_neg far,inverse,number,gap,pow_add,← fractionUnit,Nat.mul_mod_mul_right]
      push_cast
      field_simp

omit positive in
theorem toU64_of_integral (small : n < 2 ^ 64) : d.toU64 = n := by
  rw [toU64,integral,Int.floor_natCast,Int.toNat_natCast]
  omega

end integral

end Double

end Perry.Words
