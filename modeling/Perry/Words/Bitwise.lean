import Perry.Words.Bits
import Mathlib.Data.Int.Bitwise

/-! Bitwise operations on rows of words, and on the two's complement numbers that the rows stand for. -/
namespace Perry.Words
open Nat (ofDigits)

variable {k m n : Nat} {as bs ws : List Nat}

/-- Integers with the same bits are the same. -/
theorem int_ext {x y : Int} (same : ∀ i,x.testBit i = y.testBit i) : x = y := by
  have apart : ∀ a b : Nat,∃ i,a.testBit i ≠ !b.testBit i := by
    intro a b
    have high : ∀ c,c ≤ a + b → c.testBit (a + b) = false := fun c below =>
      Nat.testBit_lt_two_pow (Nat.lt_of_le_of_lt below Nat.lt_two_pow_self)
    exact ⟨a + b,by rw [high a (by omega),high b (by omega)]; decide⟩
  cases x with
  | ofNat a =>
    cases y with
    | ofNat b => exact congrArg _ (Nat.eq_of_testBit_eq same)
    | negSucc b =>
      obtain ⟨i,different⟩ := apart a b
      exact absurd (same i) different
  | negSucc a =>
    cases y with
    | ofNat b =>
      obtain ⟨i,different⟩ := apart b a
      exact absurd (same i).symm different
    | negSucc b => exact congrArg _ (Nat.eq_of_testBit_eq fun i => Bool.not_inj (same i))

theorem testBit_complement (x : Int) (i : Nat) : (-x - 1).testBit i = !x.testBit i := by
  cases x with
  | ofNat n =>
    have negative : -Int.ofNat n - 1 = Int.negSucc n := by
      rw [Int.negSucc_eq,Int.ofNat_eq_natCast]
      omega
    rw [negative]
    rfl
  | negSucc n =>
    have positive : -Int.negSucc n - 1 = Int.ofNat n := by
      rw [Int.negSucc_eq,Int.ofNat_eq_natCast]
      omega
    rw [positive]
    exact (Bool.not_not _).symm

/-- A two's complement number repeats its top bit without end. -/
theorem testBit_signed (below : n < 2 * 2 ^ m) (i : Nat) : (signed (2 ^ m) n).testBit i = n.testBit (min i m) := by
  rw [← Nat.pow_succ'] at below
  unfold signed
  split
  · next small =>
    show n.testBit i = _
    obtain low | high := Nat.lt_or_ge i m
    · rw [Nat.min_eq_left low.le]
    · rw [Nat.min_eq_right high,Nat.testBit_lt_two_pow small,
        Nat.testBit_lt_two_pow (Nat.lt_of_lt_of_le small (Nat.pow_le_pow_right (by omega) high))]
  · next large =>
    have negative : (n : Int) - 2 * (2 ^ m : Nat) = Int.negSucc (2 ^ (m + 1) - (n + 1)) := by
      rw [Int.negSucc_eq,Nat.pow_succ] at *
      omega
    rw [negative]
    show (!(2 ^ (m + 1) - (n + 1)).testBit i) = _
    rw [Nat.testBit_two_pow_sub_succ below]
    obtain low | high := Nat.lt_or_ge i (m + 1)
    · rw [Nat.min_eq_left (by omega),decide_eq_true low,Bool.true_and,Bool.not_not]
    · have top : n.testBit m = true := by
        rw [Nat.testBit_eq_decide_div_mod_eq]
        have quotient : n / 2 ^ m = 1 := by
          rw [Nat.pow_succ] at below
          exact Nat.div_eq_of_lt_le (by omega) (by omega)
        rw [quotient]
        rfl
      rw [Nat.min_eq_right (by omega),decide_eq_false (by omega),top]
      rfl

section Rows

variable {g : Nat → Nat → Nat} {f : Bool → Bool → Bool}

/-- A row that is combined word by word is combined bit by bit. -/
theorem testBit_zipWith (width : 0 < k) (left : Digits (2 ^ k) as) (right : Digits (2 ^ k) bs)
    (combined : Digits (2 ^ k) (List.zipWith g as bs)) (bits : ∀ a b i,(g a b).testBit i = f (a.testBit i) (b.testBit i))
    (lengths : as.length = bs.length) {i : Nat} (inside : i < k * as.length) :
    (ofDigits (2 ^ k) (List.zipWith g as bs)).testBit i = f ((ofDigits (2 ^ k) as).testBit i) ((ofDigits (2 ^ k) bs).testBit i) := by
  have place : i / k < as.length := Nat.div_lt_of_lt_mul inside
  have other : i / k < bs.length := lengths ▸ place
  have both : i / k < (List.zipWith g as bs).length := by
    rw [List.length_zipWith]
    exact lt_min place other
  rw [testBit_value width combined,testBit_value width left,testBit_value width right,List.getD_eq_getElem _ _ both,
    List.getD_eq_getElem _ _ place,List.getD_eq_getElem _ _ other,List.getElem_zipWith,bits]

/-- A row that is complemented word by word is complemented bit by bit. -/
theorem testBit_complemented (width : 0 < k) (digits : Digits (2 ^ k) ws) {i : Nat} (inside : i < k * ws.length) :
    (ofDigits (2 ^ k) (ws.map fun w => 2 ^ k - (w + 1))).testBit i = !(ofDigits (2 ^ k) ws).testBit i := by
  have place : i / k < ws.length := Nat.div_lt_of_lt_mul inside
  have other : i / k < (ws.map fun w => 2 ^ k - (w + 1)).length := by rwa [List.length_map]
  have complemented : Digits (2 ^ k) (ws.map fun w => 2 ^ k - (w + 1)) := by
    intro w member
    obtain ⟨v,_,rfl⟩ := List.mem_map.mp member
    exact Nat.sub_lt (Nat.two_pow_pos k) (Nat.succ_pos v)
  rw [testBit_value width complemented,testBit_value width digits,List.getD_eq_getElem _ _ other,List.getD_eq_getElem _ _ place,
    List.getElem_map,Nat.testBit_two_pow_sub_succ (digits _ (List.getElem_mem _)),decide_eq_true (Nat.mod_lt i width),Bool.true_and]

end Rows

end Perry.Words
