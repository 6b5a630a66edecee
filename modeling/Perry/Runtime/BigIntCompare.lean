import Perry.Runtime.BigIntArith
import Perry.Words.Doubles

/-! `bigint/compare.rs`: the order of two BigInts, and of a BigInt and a Number, whose integer
part is turned into limbs first. -/
namespace Perry.Runtime.BigInt

open Perry.Words
open Nat (ofDigits)
open Limbs

variable {a b : Limbs} {n : Nat} {z : Int}

/-- A Number. -/
inductive F64
  | nan
  | infinite (negative : Bool)
  | finite (d : Double)

/-- `compare_limbs`. -/
def compareLimbs (a b : Limbs) : Int :=
  if a.isNegative ∧ ¬ b.isNegative then -1
  else if ¬ a.isNegative ∧ b.isNegative then 1
  else match compareHigh a.words b.words with
    | .gt => 1
    | .lt => -1
    | .eq => 0

/-- `js_bigint_cmp`. -/
def jsBigintCmp (a b : Limbs) : Int :=
  match fitsInI64 a,fitsInI64 b with
  | some av,some bv => if av < bv then -1 else if av = bv then 0 else 1
  | _,_ => compareLimbs a b

/-- The limbs of the loop of `limbs_from_integer_f64`, at most so many, and what is left of the
magnitude. -/
def integerLimbs : Nat → Double → List Nat × Double
  | 0,mag => ([],mag)
  | room + 1,mag =>
    if 1 ≤ mag.value then
      let rest := integerLimbs room (mag.divPow 64).floor
      ((mag.remPow 64).toU64 :: rest.1,rest.2)
    else ([],mag)

/-- `limbs_from_integer_f64`. -/
def limbsFromIntegerF64 (value : Double) : Outcome :=
  if value.value = 0 then .ok zero
  else
    let negative : Bool := value.value < 0
    let read := integerLimbs bigintLimbs value.abs
    let limbs := ofWords read.1
    if 1 ≤ read.2.value ∨ ¬ magnitudeFits1024 limbs.words negative then throwBigintOverflow
    else if negative then .ok (negateLimbs limbs)
    else .ok limbs

/-- How Rust writes a Number that is no integer, in the message of the error. -/
abbrev Label := Double → String

def notAnInteger (label : String) : String :=
  "The number " ++ label ++ " cannot be converted to a BigInt because it is not an integer"

/-- `js_bigint_from_f64` on a finite Number. -/
def jsBigintFromF64 (label : Label) (value : Double) : Outcome :=
  if value.floor.value ≠ value.value then .error (.rangeError (notAnInteger (label value)))
  else limbsFromIntegerF64 value

/-- `bigint_cmp_f64`. -/
def bigintCmpF64 (label : Label) (x : Limbs) : F64 → Except Error Int
  | .nan => .ok 2
  | .infinite negative => if negative then .ok 1 else .ok (-1)
  | .finite y =>
    if 2 ^ 1023 ≤ y.abs.value ∧ (fitsInI64 x).isSome then .ok (if 0 < y.value then -1 else 1)
    else do
      let floorBig ← jsBigintFromF64 label y.floor
      let c := jsBigintCmp x floorBig
      if c ≠ 0 then pure c else if y.floor.value < y.value then pure (-1) else pure 0

/-- The sign of a difference. -/
def orderSign (p q : ℚ) : Int := if p < q then -1 else if p = q then 0 else 1

section Comparing

theorem compareLimbs_eq : compareLimbs a b = orderSign a.toInt b.toInt := by
  have left := a.toNat_lt
  have right := b.toNat_lt
  have value := compareHigh_value (a.size.trans b.size.symm) a.small b.small
  change _ = compare a.toNat b.toNat at value
  unfold compareLimbs orderSign
  simp only [Int.cast_lt,Int.cast_inj,isNegative_iff,value]
  unfold toInt signed
  rcases Nat.lt_trichotomy a.toNat b.toNat with lt | eq | gt
  · rw [Nat.compare_eq_lt.mpr lt]
    split_ifs <;> first | rfl | omega
  · rw [Nat.compare_eq_eq.mpr eq]
    split_ifs <;> first | rfl | omega
  · rw [Nat.compare_eq_gt.mpr gt]
    split_ifs <;> first | rfl | omega

theorem jsBigintCmp_eq : jsBigintCmp a b = orderSign a.toInt b.toInt := by
  unfold jsBigintCmp
  split
  · rename_i av bv left right
    rw [orderSign,(fitsInI64_some left).1,(fitsInI64_some right).1]
    simp only [Int.cast_lt,Int.cast_inj]
  · exact compareLimbs_eq

end Comparing

section Converting

variable {d : Double}

/-- The loop writes the digits of an integer and leaves what sixteen limbs do not hold. -/
theorem integerLimbs_spec (room : Nat) {mag : Double} (positive : mag.negative = false) (integral : mag.value = n) :
    Digits base (integerLimbs room mag).1 ∧ (integerLimbs room mag).1.length ≤ room ∧
      ∃ rest : Nat,(integerLimbs room mag).2.value = rest ∧
        n = ofDigits base (integerLimbs room mag).1 + base ^ room * rest := by
  induction room generalizing n mag with
  | zero => exact ⟨.nil,Nat.le_refl 0,n,integral,by simp [integerLimbs]⟩
  | succ room ih =>
    rw [integerLimbs]
    by_cases some : 1 ≤ mag.value
    · rw [if_pos some]
      have one : 1 ≤ n := by
        rw [integral] at some
        exact_mod_cast some
      obtain ⟨quotient,sign⟩ := Double.floor_divPow positive integral one (by decide : 64 ≤ 1000)
      obtain ⟨digits,length,rest,left,split⟩ := ih sign quotient
      have remainder := Double.value_remPow positive integral (k := 64)
      have word := Double.toU64_of_integral remainder (Nat.mod_lt _ (Nat.two_pow_pos 64))
      dsimp only
      rw [word]
      refine ⟨digits_cons.mpr ⟨Nat.mod_lt _ (Nat.two_pow_pos 64),digits⟩,Nat.succ_le_succ length,rest,left,?_⟩
      have whole := Nat.mod_add_div n (2 ^ 64)
      rw [Nat.ofDigits_cons,pow_succ]
      calc n = n % 2 ^ 64 + 2 ^ 64 * (n / 2 ^ 64) := whole.symm
        _ = n % 2 ^ 64 + 2 ^ 64 * (ofDigits base (integerLimbs room (mag.divPow 64).floor).1 + base ^ room * rest) := by
            rw [← split]
        _ = _ := by
            simp only [base]
            ring_nf
    · rw [if_neg some]
      have none : n = 0 := by
        rw [integral] at some
        have below : n < 1 := by exact_mod_cast not_le.mp some
        omega
      refine ⟨.nil,Nat.zero_le _,0,?_,by simp [none]⟩
      rw [integral,none]

theorem abs_integral (integral : d.value = z) : d.abs.value = z.natAbs := by
  rw [Double.value_abs]
  unfold Double.value at integral
  have nonnegative := Double.magnitude_nonneg (d := d)
  split at integral
  · have value : d.magnitude = ((-z : Int) : ℚ) := by
      push_cast
      linarith
    have sign : 0 ≤ -z := by
      rw [value] at nonnegative
      exact_mod_cast nonnegative
    rw [value,← Int.cast_natCast,Int.cast_inj]
    omega
  · have sign : 0 ≤ z := by
      rw [integral] at nonnegative
      exact_mod_cast nonnegative
    rw [integral,← Int.cast_natCast,Int.cast_inj]
    omega

theorem limbsFromIntegerF64_exact (integral : d.value = z) : Exact (limbsFromIntegerF64 d) z := by
  have positive := limit_pos
  rw [limbsFromIntegerF64]
  by_cases zero_value : d.value = 0
  · rw [if_pos zero_value]
    rw [integral] at zero_value
    apply Exact.ok
    rw [toInt_zero]
    exact_mod_cast zero_value.symm
  · obtain ⟨digits,length,rest,left,split⟩ :=
      integerLimbs_spec bigintLimbs (rfl : d.abs.negative = false) (abs_integral integral)
    have some : z ≠ 0 := by
      intro none
      rw [integral,none] at zero_value
      exact zero_value Int.cast_zero
    have sign : (decide (d.value < 0) = true) ↔ z < 0 := by
      rw [decide_eq_true_iff,integral]
      exact_mod_cast Iff.rfl
    have limbs := toNat_ofWords digits length
    rw [if_neg zero_value]
    dsimp only
    rw [left]
    generalize ofWords (integerLimbs bigintLimbs d.abs).1 = read at *
    have fits := @magnitudeFits1024_iff read.words (decide (d.value < 0)) read.small (Nat.le_of_eq read.size.symm)
    change _ ↔ read.toNat < limit ∨ _ ∧ read.toNat = limit at fits
    rw [base_pow,← limbs] at split
    rw [sign] at fits
    by_cases more : 1 ≤ rest
    · rw [if_pos (.inl (by exact_mod_cast more))]
      have large := Nat.mul_le_mul_left (2 * limit) more
      apply Exact.overflow
      unfold InRange
      omega
    · have none : rest = 0 := by omega
      rw [none,Nat.mul_zero,Nat.add_zero] at split
      have inside : ¬ (1 : ℚ) ≤ (rest : Nat) := by
        rw [none]
        norm_num
      by_cases room : magnitudeFits1024 read.words (decide (d.value < 0))
      · rw [if_neg (by simp [inside,room])]
        rw [fits] at room
        split
        · rename_i negative
          rw [sign] at negative
          apply Exact.ok
          rw [toInt_negateLimbs_of_le (by omega)]
          omega
        · rename_i other
          rw [sign] at other
          apply Exact.ok
          rw [toInt_of_lt (by omega)]
          omega
      · rw [if_pos (.inr room)]
        rw [fits] at room
        apply Exact.overflow
        unfold InRange
        omega

theorem jsBigintFromF64_floor (label : Label) (y : Double) : Exact (jsBigintFromF64 label y.floor) ⌊y.value⌋ := by
  have integral := Double.value_floor (d := y)
  have twice := Double.value_floor (d := y.floor)
  rw [integral,Int.floor_intCast] at twice
  rw [jsBigintFromF64,if_neg (not_not.mpr (twice.trans integral.symm))]
  exact limbsFromIntegerF64_exact integral

end Converting

section Mixed

theorem orderSign_floor (x : Int) (q : ℚ) :
    orderSign x q = if orderSign x ⌊q⌋ ≠ 0 then orderSign x ⌊q⌋ else if (⌊q⌋ : ℚ) < q then -1 else 0 := by
  have below := Int.floor_le q
  have above := Int.lt_floor_add_one q
  unfold orderSign
  simp only [Int.cast_lt,Int.cast_inj]
  rcases lt_trichotomy x ⌊q⌋ with lt | eq | gt
  · have under : (x : ℚ) < q := lt_of_lt_of_le (by exact_mod_cast lt) below
    simp [lt,under]
  · rw [← eq] at below ⊢
    rcases below.lt_or_eq with under | same
    · simp [under]
    · simp [same]
  · have next : ((⌊q⌋ + 1 : Int) : ℚ) ≤ x := by exact_mod_cast gt
    push_cast at next
    have beyond : q < x := lt_of_lt_of_le above next
    have differ : x ≠ ⌊q⌋ := by omega
    simp [not_lt.mpr beyond.le,beyond.ne',not_lt.mpr gt.le,differ]

/-- Two BigInts always compare as their integers. A BigInt and a finite Number do exactly when
the one fits an `i64` or the other's integer part is representable; the conversion raises the
overflow error otherwise. -/
theorem comparisons_exact_iff (a b : Limbs) (label : Label) (x : Limbs) (y : Double) :
    jsBigintCmp a b = orderSign a.toInt b.toInt ∧
      (bigintCmpF64 label x (.finite y) = .ok (orderSign x.toInt y.value) ↔
        (fitsInI64 x).isSome ∨ InRange ⌊y.value⌋) := by
  refine ⟨jsBigintCmp_eq,?_⟩
  have converted := jsBigintFromF64_floor label y
  have bound : (limit : ℚ) = 2 ^ 1023 := by
    rw [limit,Nat.cast_pow,Nat.cast_ofNat]
  rw [bigintCmpF64]
  by_cases small : 2 ^ 1023 ≤ y.abs.value ∧ (fitsInI64 x).isSome
  · rw [if_pos small]
    simp only [small.2,true_or,iff_true]
    obtain ⟨v,fits⟩ := Option.isSome_iff_exists.mp small.2
    obtain ⟨value,low,high⟩ := fitsInI64_some fits
    have large := small.1
    have lowQ : ((-2 ^ 63 : Int) : ℚ) ≤ v := by exact_mod_cast low
    have highQ : (v : ℚ) < ((2 ^ 63 : Int) : ℚ) := by exact_mod_cast high
    have far : ((2 ^ 63 : Int) : ℚ) < 2 ^ 1023 := by
      rw [Int.cast_pow]
      exact pow_lt_pow_right₀ (by norm_num) (by norm_num)
    have word_pos : 0 < ((2 ^ 63 : Int) : ℚ) := by norm_num
    rw [Int.cast_neg] at lowQ
    generalize ((2 ^ 63 : Int) : ℚ) = word at *
    generalize (2 : ℚ) ^ 1023 = top at *
    have magnitude := Double.magnitude_nonneg (d := y)
    rw [Double.value_abs] at large
    rw [value,orderSign]
    unfold Double.value
    cases y.negative with
    | false =>
      simp only [Bool.false_eq_true,if_false]
      rw [if_pos (by linarith),if_pos (by linarith)]
    | true =>
      simp only [if_true]
      rw [if_neg (by linarith),if_neg (by linarith),if_neg (by linarith)]
  · rw [if_neg small]
    unfold Exact at converted
    split at converted
    · rename_i inside
      obtain ⟨c,found,value⟩ := converted
      simp only [inside,or_true,iff_true]
      rw [found,orderSign_floor,Double.value_floor]
      change (if jsBigintCmp x c ≠ 0 then _ else _) = _
      rw [jsBigintCmp_eq,value]
      split
      · rfl
      · split <;> rfl
    · rename_i outside
      rw [converted]
      constructor
      · intro wrong
        cases wrong
      · rintro (fits | inside)
        · have near : ¬ 2 ^ 1023 ≤ y.abs.value := fun large => small ⟨large,fits⟩
          rw [Double.value_abs,← bound,not_le] at near
          exfalso
          apply outside
          have magnitude := Double.magnitude_nonneg (d := y)
          have positive : (0 : ℚ) < limit := by exact_mod_cast limit_pos
          unfold InRange
          rw [Int.le_floor,Int.floor_lt]
          push_cast
          clear bound
          generalize (limit : ℚ) = top at *
          unfold Double.value
          split <;> constructor <;> linarith
        · exact absurd inside outside

/-- `2n ** 64n` against `Number.MAX_VALUE`. -/
theorem bigintCmpF64_raises :
    bigintCmpF64 (fun _ => "1.7976931348623157e+308") (ofWords [0,1]) (.finite ⟨false,2 ^ 53 - 1,971,by decide,by decide,by decide⟩) ≠
      .ok (orderSign (ofWords [0,1]).toInt (Double.mk false (2 ^ 53 - 1) 971 (by decide) (by decide) (by decide)).value) := by
  have wide : fitsInI64 (ofWords [0,1]) = none := by decide
  generalize shape : Double.mk false (2 ^ 53 - 1) 971 _ _ _ = y
  have sign : y.negative = false := by rw [← shape]
  have mantissa : y.mantissa = 2 ^ 53 - 1 := by rw [← shape]
  have whole : 0 ≤ y.exponent := by
    rw [← shape]
    decide
  have exponent : y.exponent.toNat = 971 := by
    rw [← shape]
    rfl
  have value : y.value = ((2 ^ 53 - 1) * 2 ^ 971 : Nat) := by
    rw [Double.value,sign,if_neg Bool.false_ne_true,Double.magnitude_whole whole,mantissa,exponent]
  have large : 2 ^ 1023 ≤ (2 ^ 53 - 1) * 2 ^ 971 := by
    calc 2 ^ 1023 = 2 ^ 52 * 2 ^ 971 := by rw [← pow_add]
      _ ≤ (2 ^ 53 - 1) * 2 ^ 971 := Nat.mul_le_mul_right _ (by decide)
  have outside : ¬ InRange ⌊y.value⌋ := by
    rw [value,Int.floor_natCast]
    unfold InRange limit
    intro inside
    have below : (2 ^ 53 - 1) * 2 ^ 971 < 2 ^ 1023 := by exact_mod_cast inside.2
    exact absurd large (not_le.mpr below)
  have raised : jsBigintFromF64 (fun _ => "1.7976931348623157e+308") y.floor = throwBigintOverflow := by
    have converted := jsBigintFromF64_floor (fun _ => "1.7976931348623157e+308") y
    rw [Exact,if_neg outside] at converted
    exact converted
  rw [bigintCmpF64,wide,raised,if_neg (by simp)]
  intro wrong
  cases wrong

end Mixed

end Perry.Runtime.BigInt
