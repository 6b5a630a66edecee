import Perry.Words.Rounding

/-! The numbers that half-precision bit patterns denote. -/
namespace Perry.Words.Binary16

/-- The number of a pattern without sign; the row goes on past the finite ones. -/
def row (c : Nat) : ℚ := if c < 1024 then c * 2 ^ (-24 : Int) else (1024 + c % 1024 : Nat) * 2 ^ ((c / 1024 : Nat) - 25 : Int)

def unsigned (half : BitVec 16) : Nat := half.toNat % 2 ^ 15

def IsFinite (half : BitVec 16) : Prop := unsigned half < 31744

def IsNaN (half : BitVec 16) : Prop := 31744 < unsigned half

def value (half : BitVec 16) : ℚ := if half.msb then -row (unsigned half) else row (unsigned half)

def pack (negative : Bool) (c : Nat) : BitVec 16 := BitVec.ofNat 16 ((if negative then 2 ^ 15 else 0) + c)

def infinity (negative : Bool) : BitVec 16 := pack negative 31744

def zero (negative : Bool) : BitVec 16 := pack negative 0

variable {half half' : BitVec 16} {c h k : Nat} {x : ℚ}

theorem toNat_eq (half : BitVec 16) : half.toNat = (if half.msb then 2 ^ 15 else 0) + unsigned half := by
  have small := half.isLt
  rw [unsigned,BitVec.msb_eq_decide]
  simp only [decide_eq_true_eq]
  split <;> omega

theorem half_ext (sign : half.msb = half'.msb) (same : unsigned half = unsigned half') : half = half' := by
  apply BitVec.eq_of_toNat_eq
  rw [toNat_eq,toNat_eq half',sign,same]

theorem pack_fields (negative : Bool) (small : c < 2 ^ 15) : (pack negative c).msb = negative ∧ unsigned (pack negative c) = c := by
  have whole : (pack negative c).toNat = (if negative then 2 ^ 15 else 0) + c := by
    rw [pack,BitVec.toNat_ofNat]
    apply Nat.mod_eq_of_lt
    split <;> omega
  rw [unsigned,BitVec.msb_eq_decide,whole]
  cases negative with
  | true =>
    simp only [if_true]
    exact ⟨decide_eq_true (by omega),by omega⟩
  | false =>
    simp only [Bool.false_eq_true,if_false]
    exact ⟨decide_eq_false (by omega),by omega⟩

theorem pack_unsigned (half : BitVec 16) : pack half.msb (unsigned half) = half := by
  obtain ⟨sign,same⟩ := pack_fields half.msb (Nat.mod_lt half.toNat (by decide : 0 < 2 ^ 15))
  exact half_ext sign same

/-- In the binade `h` the row counts units, up to the first number of the next binade. -/
theorem row_units (low : h = 1 ∨ 1024 ≤ k) (some : 1 ≤ h) (high : k ≤ 2048) :
    row ((h - 1) * 1024 + k) = k * 2 ^ ((h : Int) - 25) := by
  obtain ⟨g,rfl⟩ := Nat.exists_eq_add_of_le' some
  rw [Nat.add_sub_cancel,row]
  by_cases small : g * 1024 + k < 1024
  · rw [if_pos small,show g = 0 by omega]
    norm_num
  · rw [if_neg small]
    by_cases next : k = 2048
    · rw [next,show (g * 1024 + 2048) / 1024 = g + 2 by omega,show (g * 1024 + 2048) % 1024 = 0 by omega]
      have double : (2 : ℚ) ^ (((g + 2 : Nat) : Int) - 25) = 2 * 2 ^ (((g + 1 : Nat) : Int) - 25) := by
        rw [← zpow_one_add₀ two_ne_zero]
        congr 1
        push_cast
        ring
      rw [double]
      push_cast
      ring
    · rw [show (g * 1024 + k) / 1024 = g + 1 by omega,show 1024 + (g * 1024 + k) % 1024 = k by omega]

theorem row_place (c : Nat) : ∃ h k,1 ≤ h ∧ (h = 1 ∨ 1024 ≤ k) ∧ k < 2048 ∧ c = (h - 1) * 1024 + k := by
  by_cases small : c < 1024
  · exact ⟨1,c,le_rfl,.inl rfl,by omega,by omega⟩
  · exact ⟨c / 1024,1024 + c % 1024,by omega,.inr (by omega),by omega,by omega⟩

theorem row_rising : StrictMono row := by
  apply strictMono_nat_of_lt_succ
  intro c
  obtain ⟨h,k,some,low,high,rfl⟩ := row_place c
  have next := @row_units h (k + 1) (low.imp_right Nat.le_succ_of_le) some high
  rw [row_units low some (by omega),Nat.add_assoc,next]
  apply mul_lt_mul_of_pos_right _ (by positivity)
  exact_mod_cast Nat.lt_succ_self k

theorem row_nonneg (c : Nat) : 0 ≤ row c := by
  unfold row
  split <;> positivity

theorem row_zero : row 0 = 0 := by simp [row]

theorem value_abs (half : BitVec 16) : |value half| = row (unsigned half) := by
  have positive := abs_of_nonneg (row_nonneg (unsigned half))
  unfold value
  split
  · rw [abs_neg,positive]
  · exact positive

/-- A number given in parts of the unit of its binade lies next to what the parts are rounded to. -/
theorem between_units {m s : Nat} (some : 1 ≤ h) (low : h = 1 ∨ 1024 * 2 ^ s ≤ m) (high : m < 2048 * 2 ^ s)
    (scaled : x * 2 ^ s = m * 2 ^ ((h : Int) - 25)) : Between row x ((h - 1) * 1024 + Double.roundOff m s) := by
  have within := Double.roundOff_within m s
  have tie := @Double.roundOff_tie m s
  have bound : Double.roundOff m s ≤ 2048 := Double.roundOff_le high.le
  have long : h = 1 ∨ 1024 ≤ Double.roundOff m s := low.imp_right Double.le_roundOff
  have place := row_units long some bound
  generalize Double.roundOff m s = k at *
  have positive : (0 : ℚ) < 2 ^ s := by positivity
  have unit : (0 : ℚ) < 2 ^ ((h : Int) - 25) := by positivity
  have even (parity : Even k) : Even ((h - 1) * 1024 + k) := by
    rw [Nat.even_iff] at *
    omega
  -- bounds in whole parts become bounds in units
  have upper (a : Nat) : 2 * x ≤ a * 2 ^ ((h : Int) - 25) ↔ 2 * m ≤ a * 2 ^ s := by
    rw [← mul_le_mul_iff_left₀ positive,mul_assoc,scaled,mul_right_comm,← mul_assoc,mul_le_mul_iff_left₀ unit]
    exact_mod_cast Iff.rfl
  have lower (a : Nat) : a * 2 ^ ((h : Int) - 25) ≤ 2 * x ↔ a * 2 ^ s ≤ 2 * m := by
    rw [← mul_le_mul_iff_left₀ positive,mul_assoc 2,scaled,mul_right_comm,← mul_assoc,mul_le_mul_iff_left₀ unit]
    exact_mod_cast Iff.rfl
  have whole : 2 * x < (4096 : Nat) * 2 ^ ((h : Int) - 25) := by
    rw [← not_le,lower]
    omega
  have next : row ((h - 1) * 1024 + k) < row ((h - 1) * 1024 + k + 1) := row_rising (Nat.lt_succ_self _)
  have sum (short : k < 2048) : row ((h - 1) * 1024 + k) + row ((h - 1) * 1024 + k + 1) =
      (2 * k + 1 : Nat) * 2 ^ ((h : Int) - 25) := by
    rw [place,Nat.add_assoc,row_units (long.imp_right Nat.le_succ_of_le) some short]
    push_cast
    ring
  have previous {b : Nat} (step : (h - 1) * 1024 + k = b + 1) : row b < row ((h - 1) * 1024 + k) := row_rising (by omega)
  have sum' {b : Nat} (step : (h - 1) * 1024 + k = b + 1) (inner : h = 1 ∨ 1024 < k) : row b + row ((h - 1) * 1024 + k) =
      (2 * k - 1 : Nat) * 2 ^ ((h : Int) - 25) := by
    rw [place,show b = (h - 1) * 1024 + (k - 1) by omega,row_units (inner.imp_right Nat.le_sub_one_of_lt) some (by omega),← add_mul]
    congr 1
    exact_mod_cast (by omega : k - 1 + k = 2 * k - 1)
  have least {b : Nat} (step : (h - 1) * 1024 + k = b + 1) (outer : ¬(h = 1 ∨ 1024 < k)) :
      row b + row ((h - 1) * 1024 + k) < 2 * x := by
    obtain rfl : k = 1024 := by omega
    have above := (lower 2048).mpr (by omega)
    have less := previous step
    rw [place] at less ⊢
    push_cast at *
    linarith
  refine ⟨?_,fun equal => ?_,fun b step => ?_,fun b step equal => ?_⟩
  · by_cases short : k < 2048
    · rw [sum short,upper]
      exact within.1
    · obtain rfl : k = 2048 := by omega
      rw [place] at next ⊢
      push_cast at *
      linarith
  · by_cases short : k < 2048
    · rw [sum short] at equal
      apply even
      apply tie
      left
      exact le_antisymm within.1 ((lower _).mp equal.ge)
    · obtain rfl : k = 2048 := by omega
      rw [place] at next equal
      push_cast at *
      linarith
  · by_cases inner : h = 1 ∨ 1024 < k
    · rw [sum' step inner,lower,Nat.sub_mul]
      omega
    · exact (least step inner).le
  · by_cases inner : h = 1 ∨ 1024 < k
    · rw [sum' step inner] at equal
      apply even
      apply tie
      right
      have parts := (upper _).mp equal.ge
      have large : 2 ^ s ≤ 2 * k * 2 ^ s := Nat.le_mul_of_pos_left _ (by omega)
      rw [Nat.sub_mul] at parts
      omega
    · exact absurd equal (least step inner).ne

theorem row_last : row 31743 = 65504 ∧ row 31744 = 65536 := by
  constructor
  · norm_num [row]
  · norm_num [row]

/-- Numbers from 65520 on lie nearer to what would come after the last finite number. -/
theorem overflow_iff (middle : Between row x c) : 31744 ≤ c ↔ 65520 ≤ x := by
  obtain ⟨last,after⟩ := row_last
  constructor
  · intro large
    have step := middle.above (c - 1) (by omega)
    have previous := row_rising.monotone (show 31743 ≤ c - 1 by omega)
    have this := row_rising.monotone large
    linarith
  · intro large
    by_contra small
    have this := row_rising.monotone (show c ≤ 31743 by omega)
    have next := row_rising.monotone (show c + 1 ≤ 31744 by omega)
    have equal : 2 * x = row c + row (c + 1) := le_antisymm middle.below (by linarith)
    have top : c = 31743 := by
      by_contra lower
      have less := row_rising (show c < 31743 by omega)
      linarith
    have even := middle.belowEven equal
    rw [top] at even
    exact absurd even (by decide)

theorem underflow (middle : Between row x c) (tiny : x ≤ 2 ^ (-25 : Int)) : c = 0 := by
  by_contra some
  have first : row 1 = 2 * 2 ^ (-25 : Int) := by norm_num [row]
  have step := middle.above (c - 1) (by omega)
  have this := row_rising.monotone (show 1 ≤ c by omega)
  have previous := row_nonneg (c - 1)
  have equal : row (c - 1) + row c = 2 * x := le_antisymm step (by linarith)
  have single : c = 1 := by
    by_contra several
    have more := row_rising (show 1 < c by omega)
    linarith
  have even := middle.aboveEven (c - 1) (by omega) equal
  rw [single] at even
  exact absurd even (by decide)

/-- A number of the row is rounded to itself. -/
theorem place_eq {b : Nat} (middle : Between row (row b) c) : c = b := by
  have near := (middle.nearest row_rising b).1
  rw [sub_self,abs_zero] at near
  have none := abs_eq_zero.mp (le_antisymm near (abs_nonneg _))
  exact row_rising.injective (sub_eq_zero.mp none).symm

/-- The nearest number among those of both signs. -/
theorem nearest_signed (sign : 0 < x → half.msb = false) (sign' : x < 0 → half.msb = true)
    (nearest : NearestEven row |x| (unsigned half)) (half' : BitVec 16) : |x - value half| ≤ |x - value half'| ∧
      (|x - value half| = |x - value half'| → value half' = value half ∨ half.toNat % 2 = 0) := by
  have near : |x - value half| = |(|x|) - row (unsigned half)| := by
    obtain negative | none | positive := lt_trichotomy x 0
    · rw [value,if_pos (sign' negative),abs_of_neg negative,← abs_neg]
      congr 1
      ring
    · rw [none,abs_zero,zero_sub,zero_sub,abs_neg,abs_neg,value_abs,abs_of_nonneg (row_nonneg _)]
    · rw [value,sign positive,if_neg Bool.false_ne_true,abs_of_pos positive]
  have far : |(|x|) - row (unsigned half')| ≤ |x - value half'| := by
    rw [← value_abs half']
    exact abs_abs_sub_abs_le x (value half')
  obtain ⟨least,even⟩ := nearest (unsigned half')
  rw [near]
  refine ⟨least.trans far,fun tie => ?_⟩
  obtain same | twice := even (le_antisymm least (tie ▸ far))
  · left
    rw [same] at far
    by_cases signs : half'.msb = half.msb
    · rw [half_ext signs same]
    · -- the numbers are opposite, and as near as each other only if `x` is zero
      have opposite : value half' = -value half := by
        rw [value,value,same]
        cases this : half.msb <;> cases that : half'.msb <;> simp_all
      rw [← near,opposite,sub_neg_eq_add,abs_eq_abs] at tie
      obtain zero | zero := tie
      · linarith
      · have none : x = 0 := by linarith
        have first := (nearest 0).1
        rw [none,abs_zero,row_zero,sub_zero,abs_zero,zero_sub,abs_neg,abs_of_nonneg (row_nonneg _),← value_abs] at first
        have empty := abs_eq_zero.mp (le_antisymm first (abs_nonneg _))
        rw [opposite,empty,neg_zero]
  · right
    have parity := Nat.even_iff.mp twice
    rw [unsigned] at parity
    omega

end Perry.Words.Binary16
