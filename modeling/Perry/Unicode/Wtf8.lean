import Mathlib.Tactic

/-! Code points, their UTF-8 bytes and their UTF-16 code units. The bytes may also
spell surrogates (WTF-8), and a sequence of units may hold them unpaired. -/
namespace Perry.Unicode

def isHigh (u : Nat) : Bool := 0xD800 ≤ u ∧ u ≤ 0xDBFF

def isLow (u : Nat) : Bool := 0xDC00 ≤ u ∧ u ≤ 0xDFFF

def isScalar (c : Nat) : Bool := c < 0x110000 ∧ ¬(0xD800 ≤ c ∧ c ≤ 0xDFFF)

/-- The bytes of a code point; a surrogate is spelled as three bytes. -/
def encodeUtf8 (c : Nat) : List UInt8 :=
  if c < 0x80 then [.ofNat c]
  else if c < 0x800 then [.ofNat (0xC0 + c / 64 % 32),.ofNat (0x80 + c % 64)]
  else if c < 0x10000 then [.ofNat (0xE0 + c / 4096 % 16),.ofNat (0x80 + c / 64 % 64),.ofNat (0x80 + c % 64)]
  else [.ofNat (0xF0 + c / 262144 % 8),.ofNat (0x80 + c / 4096 % 64),.ofNat (0x80 + c / 64 % 64),.ofNat (0x80 + c % 64)]

def unitsOf (c : Nat) : List Nat :=
  if c < 0x10000 then [c] else [0xD800 + (c - 0x10000) / 1024,0xDC00 + (c - 0x10000) % 1024]

/-- The two halves of a code point from a four-byte sequence, in 32-bit arithmetic. -/
def astral (c : Nat) : List Nat := [0xD800 + (c + 0xFFFF0000) / 1024 % 1024,0xDC00 + c % 1024]

/-- The code units of a byte string, sequence by sequence from the lead byte; a byte
that is missing at the end reads as zero. -/
def utf16 : List UInt8 → List Nat
  | [] => []
  | b :: rest =>
    if b.toNat < 0x80 then b.toNat :: utf16 rest
    else if b.toNat < 0xC0 then utf16 rest
    else match rest with
      | [] =>
        if b.toNat < 0xE0 then [b.toNat % 32 * 64]
        else if b.toNat < 0xF0 then [b.toNat % 16 * 4096] else astral (b.toNat % 8 * 262144)
      | b₁ :: rest =>
        if b.toNat < 0xE0 then (b.toNat % 32 * 64 + b₁.toNat % 64) :: utf16 rest
        else match rest with
          | [] =>
            if b.toNat < 0xF0 then [b.toNat % 16 * 4096 + b₁.toNat % 64 * 64]
            else astral (b.toNat % 8 * 262144 + b₁.toNat % 64 * 4096)
          | b₂ :: rest =>
            if b.toNat < 0xF0 then (b.toNat % 16 * 4096 + b₁.toNat % 64 * 64 + b₂.toNat % 64) :: utf16 rest
            else match rest with
              | [] => astral (b.toNat % 8 * 262144 + b₁.toNat % 64 * 4096 + b₂.toNat % 64 * 64)
              | b₃ :: rest =>
                astral (b.toNat % 8 * 262144 + b₁.toNat % 64 * 4096 + b₂.toNat % 64 * 64 + b₃.toNat % 64) ++ utf16 rest

section

-- equations, made here once and not by the first proofs that unfold these
attribute [local simp] utf16

end

/-- Every surrogate is the high or the low half of a pair. -/
def wellFormed : List Nat → Bool
  | [] => true
  | [u] => !isHigh u && !isLow u
  | u :: v :: rest => if isHigh u then isLow v && wellFormed rest else !isLow u && wellFormed (v :: rest)

theorem toNat_ofNat_of_lt {n : Nat} (small : n < 256) : (UInt8.ofNat n).toNat = n := by
  rw [UInt8.toNat_ofNat']
  exact Nat.mod_eq_of_lt small

theorem astral_eq_unitsOf {c : Nat} (wide : 0x10000 ≤ c) (small : c < 0x110000) : astral c = unitsOf c := by
  have high : (c + 0xFFFF0000) / 1024 % 1024 = (c - 0x10000) / 1024 := by omega
  have low : c % 1024 = (c - 0x10000) % 1024 := by omega
  rw [astral,unitsOf,if_neg (by omega),high,low]

theorem utf16_encodeUtf8 {c : Nat} (small : c < 0x110000) (rest : List UInt8) :
    utf16 (encodeUtf8 c ++ rest) = unitsOf c ++ utf16 rest := by
  have narrow (low : c < 0x10000) : unitsOf c ++ utf16 rest = c :: utf16 rest := by
    rw [unitsOf,if_pos low]
    rfl
  unfold encodeUtf8
  split
  · next one =>
    have first : (UInt8.ofNat c).toNat = c := toNat_ofNat_of_lt (by omega)
    rw [narrow (by omega),List.singleton_append,utf16.eq_def]
    simp only [first,if_pos one]
  split
  · next one two =>
    have first := toNat_ofNat_of_lt (n := 0xC0 + c / 64 % 32) (by omega)
    have second := toNat_ofNat_of_lt (n := 0x80 + c % 64) (by omega)
    rw [narrow (by omega),List.cons_append,List.singleton_append,utf16.eq_def]
    simp only [first,second]
    rw [if_neg (by omega),if_neg (by omega),if_pos (by omega)]
    congr 1
    omega
  split
  · next one two three =>
    have first := toNat_ofNat_of_lt (n := 0xE0 + c / 4096 % 16) (by omega)
    have second := toNat_ofNat_of_lt (n := 0x80 + c / 64 % 64) (by omega)
    have third := toNat_ofNat_of_lt (n := 0x80 + c % 64) (by omega)
    rw [narrow three,List.cons_append,List.cons_append,List.singleton_append,utf16.eq_def]
    simp only [first,second,third]
    rw [if_neg (by omega),if_neg (by omega),if_neg (by omega),if_pos (by omega)]
    congr 1
    omega
  · next one two three =>
    have first := toNat_ofNat_of_lt (n := 0xF0 + c / 262144 % 8) (by omega)
    have second := toNat_ofNat_of_lt (n := 0x80 + c / 4096 % 64) (by omega)
    have third := toNat_ofNat_of_lt (n := 0x80 + c / 64 % 64) (by omega)
    have fourth := toNat_ofNat_of_lt (n := 0x80 + c % 64) (by omega)
    rw [← astral_eq_unitsOf (by omega) small,List.cons_append,List.cons_append,List.cons_append,List.singleton_append,
      utf16.eq_def]
    simp only [first,second,third,fourth]
    rw [if_neg (by omega),if_neg (by omega),if_neg (by omega),if_neg (by omega)]
    congr 2
    omega

theorem wellFormed_unitsOf {c : Nat} (scalar : isScalar c = true) (us : List Nat) :
    wellFormed (unitsOf c ++ us) = wellFormed us := by
  have range : c < 0x110000 ∧ ¬(0xD800 ≤ c ∧ c ≤ 0xDFFF) := by
    simp only [isScalar,decide_eq_true_eq] at scalar
    exact scalar
  unfold unitsOf
  split
  · have high : isHigh c = false := by simp [isHigh]; omega
    have low : isLow c = false := by simp [isLow]; omega
    cases us with
    | nil => simp [wellFormed,high,low]
    | cons u us => simp [wellFormed,high,low]
  · have high : isHigh (0xD800 + (c - 0x10000) / 1024) = true := by simp [isHigh]; omega
    have low : isLow (0xDC00 + (c - 0x10000) % 1024) = true := by simp [isLow]; omega
    simp [wellFormed,high,low]

end Perry.Unicode
