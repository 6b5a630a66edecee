import Mathlib.Algebra.Group.Nat.Even
import Perry.Words.Doubles

/-! Rounding to the nearest of an increasing row of numbers, ties to the even place. -/
namespace Perry.Words

variable {v : Nat → ℚ} {x : ℚ} {c : Nat}

/-- No place is nearer than `c`, and none is as near unless `c` is even. -/
def NearestEven (v : Nat → ℚ) (x : ℚ) (c : Nat) : Prop :=
  ∀ b,|x - v c| ≤ |x - v b| ∧ (|x - v c| = |x - v b| → b = c ∨ Even c)

/-- The number lies between the two middles around `c`, and on a middle only if `c` is even. -/
structure Between (v : Nat → ℚ) (x : ℚ) (c : Nat) : Prop where
  below : 2 * x ≤ v c + v (c + 1)
  belowEven : 2 * x = v c + v (c + 1) → Even c
  above : ∀ b,c = b + 1 → v b + v c ≤ 2 * x
  aboveEven : ∀ b,c = b + 1 → v b + v c = 2 * x → Even c

theorem Between.nearest (rising : StrictMono v) (middle : Between v x c) : NearestEven v x c := by
  intro b
  obtain less | same | more := lt_trichotomy b c
  · obtain ⟨a,next⟩ := Nat.exists_eq_succ_of_ne_zero (Nat.ne_zero_of_lt less)
    have lower := middle.above a next
    have step := rising.monotone (show b ≤ a by omega)
    have gap := rising less
    have near : |x - v c| ≤ x - v b := abs_le.mpr ⟨by linarith,by linarith⟩
    refine ⟨near.trans (le_abs_self _),fun tie => .inr ?_⟩
    apply middle.aboveEven a next
    have far := (le_abs_self (x - v b)).trans tie.symm.le
    obtain high | low := abs_cases (x - v c)
    · linarith
    · linarith
  · rw [same]
    exact ⟨le_rfl,fun _ => .inl rfl⟩
  · have step := rising.monotone (show c + 1 ≤ b from more)
    have gap := rising more
    have upper := middle.below
    have near : |x - v c| ≤ v b - x := abs_le.mpr ⟨by linarith,by linarith⟩
    rw [abs_sub_comm x (v b)]
    refine ⟨near.trans (le_abs_self _),fun tie => .inr ?_⟩
    apply middle.belowEven
    have far := (le_abs_self (v b - x)).trans tie.symm.le
    obtain high | low := abs_cases (x - v c)
    · linarith
    · linarith

namespace Double

variable {m s : Nat}

/-- The mantissa lies within half a unit of what it is rounded to. -/
theorem roundOff_within (m s : Nat) : 2 * m ≤ (2 * roundOff m s + 1) * 2 ^ s ∧ 2 * roundOff m s * 2 ^ s ≤ 2 * m + 2 ^ s := by
  have split := Nat.div_add_mod m (2 ^ s)
  have small := Nat.mod_lt m (Nat.two_pow_pos s)
  rw [Nat.mul_comm] at split
  unfold roundOff
  split
  · rw [show 2 * (m / 2 ^ s + 1) + 1 = 2 * (m / 2 ^ s) + 3 by ring,mul_add,Nat.add_mul,Nat.add_mul,Nat.mul_assoc]
    omega
  · rw [Nat.add_mul,Nat.mul_assoc]
    omega

theorem roundOff_tie (tie : 2 * m = (2 * roundOff m s + 1) * 2 ^ s ∨ 2 * roundOff m s * 2 ^ s = 2 * m + 2 ^ s) :
    Even (roundOff m s) := by
  have split := Nat.div_add_mod m (2 ^ s)
  have small := Nat.mod_lt m (Nat.two_pow_pos s)
  rw [Nat.mul_comm] at split
  rw [Nat.even_iff]
  unfold roundOff at *
  split at tie
  · rename_i up
    rw [if_pos up]
    rw [show 2 * (m / 2 ^ s + 1) + 1 = 2 * (m / 2 ^ s) + 3 by ring,mul_add,Nat.add_mul,Nat.add_mul,Nat.mul_assoc] at tie
    omega
  · rename_i stay
    rw [if_neg stay]
    rw [Nat.add_mul,Nat.mul_assoc] at tie
    omega

theorem roundOff_le {b : Nat} (bound : m ≤ b * 2 ^ s) : roundOff m s ≤ b := by
  by_contra more
  have step := Nat.mul_le_mul_right (2 ^ s) (show 2 * (b + 1) ≤ 2 * roundOff m s by omega)
  have within := (roundOff_within m s).2
  have positive := Nat.two_pow_pos s
  rw [Nat.mul_assoc,Nat.add_mul] at step
  omega

theorem le_roundOff {b : Nat} (bound : b * 2 ^ s ≤ m) : b ≤ roundOff m s := by
  by_contra less
  have step := Nat.mul_le_mul_right (2 ^ s) (show 2 * roundOff m s + 1 ≤ 2 * b - 1 by omega)
  have within := (roundOff_within m s).1
  have positive := Nat.two_pow_pos s
  rw [Nat.sub_mul,Nat.mul_assoc] at step
  have large : 2 ^ s ≤ b * 2 ^ s := Nat.le_mul_of_pos_left _ (by omega)
  omega

end Double

end Perry.Words
