import Mathlib.Data.BitVec
import Mathlib.Tactic.Ring
import Perry.Hir.Semantics

/-! The bitwise operators and `Math.imul` as the language defines them on numbers. -/
namespace Perry.Hir

section words

/-- The integer part of a double given by its bits; infinities and NaN count as zero. -/
def truncBits (bits : Nat) : Int :=
  let exponent := bits / 2 ^ 52 % 2 ^ 11
  let mantissa := if exponent = 0 then bits % 2 ^ 52 else bits % 2 ^ 52 + 2 ^ 52
  let place := max exponent 1
  let magnitude : Nat := if 1075 ≤ place then mantissa * 2 ^ (place - 1075) else mantissa / 2 ^ (1075 - place)
  if exponent = 2047 then 0 else if bits / 2 ^ 63 % 2 = 1 then -(magnitude : Int) else magnitude

def Num.toInt32 : Num → BitVec 32
  | .int n => .ofInt 32 n
  | .negZero | .nan => 0
  | .other bits => .ofInt 32 (truncBits bits)

/-- What a bitwise operator makes of two words; `>>>` alone reads its result as unsigned. -/
def BinaryOp.bits : BinaryOp → BitVec 32 → BitVec 32 → Option Int
  | .bitAnd,a,b => some (a &&& b).toInt
  | .bitOr,a,b => some (a ||| b).toInt
  | .bitXor,a,b => some (a ^^^ b).toInt
  | .shl,a,b => some (a <<< (b.toNat % 32)).toInt
  | .shr,a,b => some (a.sshiftRight (b.toNat % 32)).toInt
  | .ushr,a,b => some (a >>> (b.toNat % 32)).toNat
  | _,_,_ => none

/-- The upper or the lower half-word. -/
def Num.half (isHi : Bool) (a : Num) : Nat := if isHi then a.toInt32.toNat / 65536 else a.toInt32.toNat % 65536

variable (a b : BitVec 32)

theorem toInt32_toInt : (Num.int a.toInt).toInt32 = a := BitVec.ofInt_toInt

theorem toInt32_toNat : (Num.int a.toNat).toInt32 = a := by
  rw [Num.toInt32,BitVec.ofInt_natCast,BitVec.ofNat_toNat,BitVec.setWidth_eq]

theorem and_mask : (a &&& 0xFFFF#32).toNat = a.toNat % 65536 := by
  rw [BitVec.toNat_and]
  exact Nat.and_two_pow_sub_one_eq_mod a.toNat 16

theorem toInt_of_small {c : BitVec 32} (small : c.toNat < 65536) : c.toInt = c.toNat :=
  BitVec.toInt_eq_toNat_of_lt (by omega)

theorem ushiftRight_half : ((a >>> 16) &&& 0xFFFF#32).toNat = a.toNat / 65536 := by
  have whole := a.isLt
  rw [and_mask,BitVec.toNat_ushiftRight,Nat.shiftRight_eq_div_pow]
  omega

/-- Below the mask the two right shifts agree. -/
theorem sshiftRight_half : a.sshiftRight 16 &&& 0xFFFF#32 = (a >>> 16) &&& 0xFFFF#32 := by
  have mask : ∀ i : Fin 32,¬i.val < 16 → (0xFFFF#32).getLsbD i = false := by decide
  apply BitVec.eq_of_getLsbD_eq
  intro i inside
  rw [BitVec.getLsbD_and,BitVec.getLsbD_and,BitVec.getLsbD_sshiftRight,BitVec.getLsbD_ushiftRight]
  by_cases low : i < 16
  · rw [if_pos (show 16 + i < 32 by omega),decide_eq_false (show ¬32 ≤ i by omega)]
    rfl
  · rw [mask ⟨i,inside⟩ low,Bool.and_false,Bool.and_false]

/-- Two words are multiplied by half-words; the product of the upper ones is lost. -/
theorem ofNat_halves : BitVec.ofNat 32 (a.toNat % 65536 * (b.toNat % 65536) +
    (a.toNat / 65536 * (b.toNat % 65536) + a.toNat % 65536 * (b.toNat / 65536)) * 65536) = a * b := by
  apply BitVec.eq_of_toNat_eq
  rw [BitVec.toNat_ofNat,BitVec.toNat_mul]
  have left := Nat.div_add_mod a.toNat 65536
  have right := Nat.div_add_mod b.toNat 65536
  generalize a.toNat / 65536 = ah at *
  generalize a.toNat % 65536 = al at *
  generalize b.toNat / 65536 = bh at *
  generalize b.toNat % 65536 = bl at *
  have product : a.toNat * b.toNat = al * bl + (ah * bl + al * bh) * 65536 + 2 ^ 32 * (ah * bh) := by
    rw [← left,← right]
    ring
  rw [product,Nat.add_mul_mod_self_left]

end words

section operators

variable {W : Type} (host : Host W)

def numerics (v w : Val) : Eval W (Val × Val) := do
  let a ← applyOp host .toNumeric [v]
  let b ← applyOp host .toNumeric [w]
  pure (a,b)

/-- The host computes the operators of numbers; other operands are converted first. -/
structure Operators : Prop where
  bitwise : ∀ op a b k,BinaryOp.bits op a.toInt32 b.toInt32 = some k →
    applyOp host (.binary op) [.num a,.num b] = pure (.int k)
  converts : ∀ op v w,(BinaryOp.bits op 0 0).isSome = true →
    applyOp host (.binary op) [v,w] = numerics host v w >>= fun p => applyOp host (.binary op) [p.1,p.2]
  mixed : ∀ op n b s r t,(BinaryOp.bits op 0 0).isSome = true → applyOp host (.binary op) [.bigInt n,.num b] s ≠ (.ok r,t)
  numeric : ∀ v s r t,applyOp host .toNumeric [v] s = (.ok r,t) → (∃ a,r = .num a) ∨ ∃ n,r = .bigInt n
  mul : ∀ a b : Int,(a * b).natAbs ≤ maxExact → applyOp host (.binary .mul) [.int a,.int b] = pure (.int (a * b))
  imul : ∀ a b,applyOp host (.variant 210) [.num a,.num b] = pure (.int (a.toInt32 * b.toInt32).toInt)

end operators

end Perry.Hir
