import Perry.Runtime.BigIntArith

/-! The texts of `bigint/convert.rs`: printing by repeated short division, and the two
readers, which accumulate digits with an overflow check. -/
namespace Perry.Runtime.BigInt

open Perry.Words
open Nat (ofDigits)
open Limbs

variable {a : Limbs} {radix d : Nat}

/-- The character of a digit: `0` to `9`, then `a` to `z`. -/
def digitChar (d : Nat) : Char :=
  if d < 10 then Char.ofNat ('0'.toNat + d) else Char.ofNat ('a'.toNat + (d - 10))

/-- `char::to_digit` before the radix is looked at. -/
def charDigit (c : Char) : Option Nat :=
  if '0' ≤ c ∧ c ≤ '9' then some (c.toNat - '0'.toNat)
  else if 'a' ≤ c ∧ c ≤ 'z' then some (c.toNat - 'a'.toNat + 10)
  else if 'A' ≤ c ∧ c ≤ 'Z' then some (c.toNat - 'A'.toNat + 10)
  else none

/-- `char::to_digit`. -/
def toDigit (radix : Nat) (c : Char) : Option Nat := (charDigit c).filter (· < radix)

/-- One round of the printing loop: the quotient by the radix, in place. -/
def divRadix (temp : Limbs) (radix : Nat) : Limbs := ofWords (divSmall base radix temp.words).1

theorem toNat_divRadix (positive : 0 < radix) : (divRadix a radix).toNat = a.toNat / radix := by
  rw [divRadix,toNat_ofWords (divSmall_digits positive a.small)
    (by rw [divSmall_length,a.size]),divSmall_quotient positive]
  rfl

/-- The digits the printing loop pushes, the lowest first. -/
def pushDigits (radix : Nat) (valid : 2 ≤ radix) (temp : Limbs) : List Nat :=
  if temp = zero then []
  else (divSmall base radix temp.words).2 :: pushDigits radix valid (divRadix temp radix)
termination_by temp.toNat
decreasing_by
  rename_i some
  rw [toNat_divRadix (by omega)]
  exact Nat.div_lt_self (Nat.pos_of_ne_zero fun empty => some (toNat_eq_zero_iff.mp empty)) valid

/-- `limbs_to_decimal_string`. -/
def limbsToDecimalString (limbs : Limbs) : List Char :=
  if limbs = zero then ['0']
  else
    let digits := (pushDigits 10 (by decide) limbs.magnitude).map fun d => Char.ofNat (d + '0'.toNat)
    if limbs.isNegative then '-' :: digits.reverse else digits.reverse

/-- `limbs_to_radix_string`. -/
def limbsToRadixString (limbs : Limbs) (radix : Nat) : List Char :=
  if valid : 2 ≤ radix ∧ radix ≤ 36 then
    if radix = 10 then limbsToDecimalString limbs
    else if limbs = zero then ['0']
    else
      let digits := (pushDigits radix valid.1 limbs.magnitude).map digitChar
      if limbs.isNegative then '-' :: digits.reverse else digits.reverse
  else limbsToDecimalString limbs

/-- Multiply by the radix and add a digit, or raise the overflow error on a carry out of
the top limb. -/
def accumulate (radix : Nat) (limbs : Limbs) (digit : Nat) : Outcome :=
  let product := mulAdd base radix limbs.words digit
  if product.2 ≠ 0 then throwBigintOverflow
  else .ok ⟨product.1,by rw [mulAdd_length,limbs.size],mulAdd_digits (by decide)⟩

/-- The end of both readers: the range check and the sign. -/
def finishParse (limbs : Limbs) (isNegative : Bool) : Outcome :=
  if ¬ magnitudeFits1024 limbs.words isNegative then throwBigintOverflow
  else if isNegative ∧ ¬ limbs.words.all (· == 0) then .ok (negateLimbs limbs)
  else .ok limbs

/-- The loop of `parse_radix_digits`; `none` is its `Err(())`. -/
def parseDigits (radix : Nat) : List Char → Limbs → Except Error (Option Limbs)
  | [],limbs => .ok (some limbs)
  | c :: cs,limbs =>
    match toDigit radix c with
    | none => .ok none
    | some digit =>
      match accumulate radix limbs digit with
      | .error e => .error e
      | .ok next => parseDigits radix cs next

/-- `parse_radix_digits`. -/
def parseRadixDigits (digits : List Char) (radix : Nat) (isNegative : Bool) :
    Except Error (Option Limbs) :=
  match parseDigits radix digits zero with
  | .error e => .error e
  | .ok none => .ok none
  | .ok (some limbs) => (finishParse limbs isNegative).map some

/-- `char::is_whitespace`: the code points with the property `White_Space`. -/
def isWhitespace (c : Char) : Bool :=
  (9 ≤ c.toNat ∧ c.toNat ≤ 13) ∨ (0x2000 ≤ c.toNat ∧ c.toNat ≤ 0x200a) ∨
    c.toNat ∈ [0x20,0x85,0xa0,0x1680,0x2028,0x2029,0x202f,0x205f,0x3000]

/-- `str::trim`. -/
def trim (s : List Char) : List Char :=
  ((s.dropWhile isWhitespace).reverse.dropWhile isWhitespace).reverse

/-- The radix named by a literal's prefix. -/
def prefixRadix : List Char → Option (Nat × List Char)
  | '0' :: tag :: digits =>
    if tag = 'x' ∨ tag = 'X' then some (16,digits)
    else if tag = 'o' ∨ tag = 'O' then some (8,digits)
    else if tag = 'b' ∨ tag = 'B' then some (2,digits)
    else none
  | _ => none

/-- The sign of a decimal text and what follows it. -/
def stripSign : List Char → Bool × List Char
  | '-' :: rest => (true,rest)
  | '+' :: rest => (false,rest)
  | s => (false,s)

/-- `parse_bigint_string`. -/
def parseBigintString (raw : List Char) : Except Error (Option Limbs) :=
  let s := trim raw
  if s = [] then .ok (some zero)
  else
    match prefixRadix s with
    | some (radix,digits) =>
      if digits = [] then .ok none else parseRadixDigits digits radix false
    | none =>
      let signed := stripSign s
      if signed.2 = [] then .ok none else parseRadixDigits signed.2 10 signed.1

/-- One limb of the hex path: up to sixteen characters, the lowest digit first. A
character that is no hex digit still takes its place. -/
def hexLimb : List Char → Nat → Nat
  | c :: cs,i =>
    match toDigit 16 c with
    | some digit => digit <<< (i * 4) ||| hexLimb cs (i + 1)
    | none => hexLimb cs (i + 1)
  | [],_ => 0

/-- The limbs of the hex path, and the characters left over. -/
def hexLimbs : Nat → List Char → List Nat × List Char
  | 0,chars => ([],chars)
  | n + 1,chars =>
    let rest := hexLimbs n (chars.drop 16)
    (hexLimb (chars.take 16) 0 :: rest.1,rest.2)

/-- The hex path of `js_bigint_from_string_radix`. -/
def parseHex (s : List Char) : Outcome :=
  let read := hexLimbs bigintLimbs s.reverse
  if read.2.any (fun c => (toDigit 16 c).any (· != 0)) then throwBigintOverflow
  else .ok (ofWords read.1)

/-- The general path of `js_bigint_from_string_radix`, which skips what is no digit. -/
def parseGeneral (radix : Nat) : List Char → Limbs → Outcome
  | [],limbs => .ok limbs
  | c :: cs,limbs =>
    match toDigit radix c with
    | none => parseGeneral radix cs limbs
    | some digit =>
      match accumulate radix limbs digit with
      | .error e => .error e
      | .ok next => parseGeneral radix cs next

def stripMinus : List Char → Bool × List Char
  | '-' :: rest => (true,rest)
  | s => (false,s)

def stripHexPrefix : List Char → List Char
  | '0' :: 'x' :: rest => rest
  | '0' :: 'X' :: rest => rest
  | s => s

/-- `js_bigint_from_string_radix`; the radix is an `i32`, cast to a `u64`. -/
def jsBigintFromStringRadix (s : List Char) (radix : Int) : Outcome :=
  if s = [] then .ok (writeI64 0)
  else
    let signed := stripMinus s
    let digits := if radix = 16 then stripHexPrefix signed.2 else signed.2
    let radix := (radix % 2 ^ 64).toNat
    match if radix = 16 then parseHex digits else parseGeneral radix digits zero with
    | .error e => .error e
    | .ok limbs => finishParse limbs signed.1

section Printing

theorem pushDigits_eq (valid : 2 ≤ radix) (temp : Limbs) :
    pushDigits radix valid temp = Nat.digits radix temp.toNat := by
  induction h : temp.toNat using Nat.strong_induction_on generalizing temp with
  | _ n ih =>
    rw [pushDigits]
    split
    · rename_i empty
      rw [← h,toNat_eq_zero_iff.mpr empty,Nat.digits_zero]
    · rename_i some
      have positive : 0 < n :=
        Nat.pos_of_ne_zero fun empty => some (toNat_eq_zero_iff.mp (h.trans empty))
      have quotient : (divRadix temp radix).toNat = n / radix := by
        rw [toNat_divRadix (by omega),h]
      rw [Nat.digits_def' valid positive,ih _ (Nat.div_lt_self positive valid) _ quotient,
        divSmall_remainder (by omega)]
      congr 2

/-- The digits of a number as they are written, the highest first. -/
def shownDigits (radix n : Nat) : List Nat :=
  if n = 0 then [0] else (Nat.digits radix n).reverse

/-- The text of a number with its sign. -/
def shown (radix : Nat) (a : Limbs) : List Char :=
  (if a.isNegative then ['-'] else []) ++ (shownDigits radix a.toInt.natAbs).map digitChar

theorem shownDigits_lt (valid : 2 ≤ radix) {n : Nat} (mem : d ∈ shownDigits radix n) : d < radix := by
  unfold shownDigits at mem
  split at mem
  · rw [List.mem_singleton] at mem
    omega
  · exact Nat.digits_lt_base valid (List.mem_reverse.mp mem)

theorem shownDigits_ne_nil (n : Nat) : shownDigits radix n ≠ [] := by
  unfold shownDigits
  split
  · exact List.cons_ne_nil 0 []
  · rename_i some
    rw [Ne,List.reverse_eq_nil_iff]
    exact Nat.digits_ne_nil_iff_ne_zero.mpr some

/-- A number is written with a leading zero only when it is zero. -/
theorem shownDigits_leading {n : Nat} {ds : List Nat} (leading : shownDigits radix n = 0 :: ds) :
    ds = [] := by
  unfold shownDigits at leading
  split at leading
  · exact (List.cons.inj leading).2.symm
  · rename_i some
    have last := Nat.getLast_digit_ne_zero radix some
    rw [← List.head_reverse (by rw [leading]; exact List.cons_ne_nil 0 ds)] at last
    simp [leading] at last

theorem shownDigits_value (n : Nat) : (shownDigits radix n).foldl (fun v d => v * radix + d) 0 = n := by
  unfold shownDigits
  split
  · simp [*]
  · rw [List.foldl_reverse]
    calc _ = ofDigits radix (Nat.digits radix n) := by
          rw [Nat.ofDigits_eq_foldr]
          congr 1
          funext d v
          simp only [Nat.cast_id]
          ring
      _ = n := Nat.ofDigits_digits radix n

theorem shown_zero : shown radix zero = ['0'] := by
  have positive : zero.isNegative = false := by decide
  rw [shown,positive,toInt_zero]
  rfl

theorem shown_of_ne_zero (some : a ≠ zero) (valid : 2 ≤ radix) :
    shown radix a =
      if a.isNegative then '-' :: ((pushDigits radix valid a.magnitude).map digitChar).reverse
      else ((pushDigits radix valid a.magnitude).map digitChar).reverse := by
  have magnitude : a.toInt.natAbs ≠ 0 := fun empty => some (toInt_eq_zero_iff.mp (by omega))
  rw [shown,shownDigits,if_neg magnitude,pushDigits_eq,toNat_magnitude,← List.map_reverse]
  split <;> rfl

theorem limbsToDecimalString_eq : limbsToDecimalString a = shown 10 a := by
  rw [limbsToDecimalString]
  split
  · rename_i empty
    rw [empty,shown_zero]
  · rename_i some
    have chars : (pushDigits 10 (by decide) a.magnitude).map (fun d => Char.ofNat (d + '0'.toNat)) =
        (pushDigits 10 (by decide) a.magnitude).map digitChar := by
      apply List.map_congr_left
      intro d mem
      rw [pushDigits_eq] at mem
      have digit := Nat.digits_lt_base (by decide) mem
      rw [digitChar,if_pos digit,Nat.add_comm]
    rw [shown_of_ne_zero some (by decide)]
    dsimp only
    rw [chars]

theorem limbsToRadixString_eq (low : 2 ≤ radix) (high : radix ≤ 36) :
    limbsToRadixString a radix = shown radix a := by
  rw [limbsToRadixString,dif_pos ⟨low,high⟩]
  split
  · rename_i decimal
    rw [decimal,limbsToDecimalString_eq]
  · split
    · rename_i empty
      rw [empty,shown_zero]
    · rename_i some
      rw [shown_of_ne_zero some low]

end Printing

section Reading

variable {limbs : Limbs} {ds : List Nat}

theorem charDigit_digitChar (digit : d < 36) : charDigit (digitChar d) = some d := by
  have table : ∀ d : Fin 36,charDigit (digitChar d) = some d.val := by decide
  exact table ⟨d,digit⟩

theorem toDigit_digitChar (digit : d < radix) (high : radix ≤ 36) :
    toDigit radix (digitChar d) = some d := by
  rw [toDigit,charDigit_digitChar (by omega)]
  simpa using digit

/-- No digit is a sign or white space, and only zero is written `0`. -/
theorem digitChar_plain (digit : d < 36) :
    isWhitespace (digitChar d) = false ∧ digitChar d ≠ '-' ∧ digitChar d ≠ '+' ∧
      (digitChar d = '0' → d = 0) := by
  have table : ∀ d : Fin 36,isWhitespace (digitChar d) = false ∧ digitChar d ≠ '-' ∧
      digitChar d ≠ '+' ∧ (digitChar d = '0' → d.val = 0) := by decide
  exact table ⟨d,digit⟩

theorem accumulate_ok (room : limbs.toNat * radix + d < 2 * limit) :
    ∃ next,accumulate radix limbs d = .ok next ∧ next.toNat = limbs.toNat * radix + d := by
  have value := @mulAdd_value base limbs.words radix d
  rw [limbs.size,base_pow] at value
  change _ = limbs.toNat * radix + d at value
  have spent : (mulAdd base radix limbs.words d).2 = 0 := by
    by_contra carried
    have wrapped := Nat.mul_le_mul_left (2 * limit) (Nat.pos_of_ne_zero carried)
    omega
  rw [accumulate,if_neg (by simpa using spent)]
  refine ⟨_,rfl,?_⟩
  rw [spent,Nat.mul_zero,Nat.add_zero] at value
  exact value

/-- The digits that are still to come only make the number larger. -/
theorem foldl_ge (positive : 0 < radix) (v : Nat) (ds : List Nat) :
    v ≤ ds.foldl (fun v d => v * radix + d) v := by
  induction ds generalizing v with
  | nil => exact Nat.le_refl v
  | cons d ds ih =>
    have grown := Nat.le_mul_of_pos_right v positive
    exact Nat.le_trans (by omega) (ih (v * radix + d))

theorem parseDigits_ok (low : 2 ≤ radix) (high : radix ≤ 36) (digits : ∀ d ∈ ds,d < radix)
    (room : ds.foldl (fun v d => v * radix + d) limbs.toNat < 2 * limit) :
    ∃ next,parseDigits radix (ds.map digitChar) limbs = .ok (some next) ∧
      next.toNat = ds.foldl (fun v d => v * radix + d) limbs.toNat := by
  induction ds generalizing limbs with
  | nil => exact ⟨limbs,rfl,rfl⟩
  | cons d ds ih =>
    have digit := digits d List.mem_cons_self
    have grown := foldl_ge (Nat.lt_of_lt_of_le Nat.two_pos low) (limbs.toNat * radix + d) ds
    rw [List.foldl_cons] at room
    obtain ⟨next,step,value⟩ := accumulate_ok (Nat.lt_of_le_of_lt grown room)
    rw [List.map_cons,parseDigits,toDigit_digitChar digit high]
    dsimp only
    rw [step,List.foldl_cons,← value]
    rw [← value] at room
    exact ih (fun e mem => digits e (List.mem_cons_of_mem d mem)) room

/-- Where the strict reader finds nothing to reject, the other one finds nothing to skip. -/
theorem parseGeneral_of_parseDigits {cs : List Char} {next : Limbs}
    (read : parseDigits radix cs limbs = .ok (some next)) :
    parseGeneral radix cs limbs = .ok next := by
  induction cs generalizing limbs with
  | nil =>
    cases read
    rfl
  | cons c cs ih =>
    rw [parseDigits] at read
    rw [parseGeneral]
    cases digit : toDigit radix c with
    | none =>
      rw [digit] at read
      cases read
    | some d =>
      rw [digit] at read
      dsimp only at read ⊢
      cases step : accumulate radix limbs d with
      | error e =>
        rw [step] at read
        cases read
      | ok next =>
        rw [step] at read
        exact ih read

theorem finishParse_ok (magnitude : limbs.toNat = a.toInt.natAbs) :
    finishParse limbs a.isNegative = .ok a := by
  have range := a.toInt_inRange
  have sign := @isNegative_iff_toInt a
  have fits : magnitudeFits1024 limbs.words a.isNegative := by
    rw [magnitudeFits1024_iff limbs.small (Nat.le_of_eq limbs.size.symm)]
    change limbs.toNat < limit ∨ a.isNegative ∧ limbs.toNat = limit
    rw [sign]
    unfold InRange at range
    omega
  have zeros : limbs.words.all (· == 0) ↔ limbs = zero := by
    rw [← toNat_eq_zero_iff,Limbs.toNat,value_eq_zero (by decide)]
    simp
  have below (negative : a.isNegative) : a.toInt ≤ 0 := Int.le_of_lt (sign.mp negative)
  have above (positive : ¬ a.isNegative) : 0 ≤ a.toInt := by
    rw [sign] at positive
    omega
  have value := toInt_restoreSign magnitude range below above
  rw [finishParse,if_neg (not_not.mpr fits)]
  split
  · rename_i flipped
    rw [zeros] at flipped
    rw [if_pos flipped] at value
    rw [toInt_inj value]
  · rename_i kept
    rw [zeros] at kept
    rw [if_neg kept] at value
    rw [toInt_inj value]

/-- What a character of the hex path adds at its place. -/
def place (c : Char) : Nat := (toDigit 16 c).getD 0

theorem toDigit_lt {c : Char} (digit : toDigit radix c = some d) : d < radix := by
  have below := (Option.filter_eq_some_iff.mp digit).2
  simpa using below

theorem place_lt (c : Char) : place c < 16 := by
  unfold place
  cases digit : toDigit 16 c with
  | none => exact Nat.zero_lt_succ 15
  | some d => exact toDigit_lt digit

theorem places_lt (cs : List Char) : ∀ d ∈ cs.map place,d < 16 := by
  intro d mem
  obtain ⟨c,-,rfl⟩ := List.mem_map.mp mem
  exact place_lt c

theorem map_place (digits : ∀ d ∈ ds,d < 16) : (ds.map digitChar).map place = ds := by
  rw [List.map_map]
  conv_rhs => rw [← List.map_id ds]
  apply List.map_congr_left
  intro d mem
  simp [place,toDigit_digitChar (digits d mem) (by decide)]

theorem hexLimb_value (cs : List Char) (i : Nat) :
    hexLimb cs i = ofDigits 16 (cs.map place) * 2 ^ (i * 4) := by
  induction cs generalizing i with
  | nil => simp [hexLimb]
  | cons c cs ih =>
    have small : place c * 2 ^ (i * 4) < 2 ^ (i * 4 + 4) := by
      rw [pow_add,Nat.mul_comm]
      exact Nat.mul_lt_mul_of_pos_left (place_lt c) (Nat.two_pow_pos _)
    have high : ofDigits 16 (cs.map place) * 2 ^ ((i + 1) * 4) = 2 ^ (i * 4 + 4) * ofDigits 16 (cs.map place) := by
      rw [Nat.add_mul,Nat.one_mul,Nat.mul_comm]
    have step : hexLimb (c :: cs) i = place c <<< (i * 4) ||| hexLimb cs (i + 1) := by
      rw [hexLimb,place]
      cases toDigit 16 c with
      | none => simp
      | some d => rfl
    rw [step,ih,Nat.shiftLeft_eq,high,Nat.or_comm,← Nat.two_pow_add_eq_or_of_lt small,List.map_cons,
      Nat.ofDigits_cons,pow_add]
    ring

@[simp] theorem hexLimbs_length (n : Nat) (cs : List Char) : (hexLimbs n cs).1.length = n := by
  induction n generalizing cs with
  | zero => rfl
  | succ n ih => simp [hexLimbs,ih]

theorem hexLimbs_rest (n : Nat) (cs : List Char) : (hexLimbs n cs).2 = cs.drop (n * 16) := by
  induction n generalizing cs with
  | zero => simp [hexLimbs]
  | succ n ih =>
    rw [hexLimbs,ih,List.drop_drop]
    congr 1
    ring

theorem hexLimbs_digits (n : Nat) (cs : List Char) : Digits base (hexLimbs n cs).1 := by
  induction n generalizing cs with
  | zero => exact .nil
  | succ n ih =>
    rw [hexLimbs,hexLimb_value]
    refine digits_cons.mpr ⟨?_,ih (cs.drop 16)⟩
    have bound := Nat.ofDigits_lt_base_pow_length (by decide) (places_lt (cs.take 16))
    have length : (cs.take 16).length ≤ 16 := List.length_take_le 16 cs
    rw [List.length_map] at bound
    rw [Nat.zero_mul,pow_zero,Nat.mul_one]
    exact Nat.lt_of_lt_of_le bound (Nat.pow_le_pow_right (by decide) length)

theorem hexLimbs_value (n : Nat) (cs : List Char) :
    ofDigits base (hexLimbs n cs).1 = ofDigits 16 ((cs.take (n * 16)).map place) := by
  induction n generalizing cs with
  | zero => simp [hexLimbs]
  | succ n ih =>
    have split := @Nat.ofDigits_append 16 ((cs.take 16).map place) (((cs.drop 16).take (n * 16)).map place)
    have parts : cs.take ((n + 1) * 16) = cs.take 16 ++ (cs.drop 16).take (n * 16) := by
      rw [← List.take_add]
      congr 1
      ring
    rw [parts,List.map_append,split,hexLimbs,Nat.ofDigits_cons,ih,hexLimb_value,Nat.zero_mul,pow_zero,Nat.mul_one]
    by_cases short : cs.length ≤ 16
    · rw [List.drop_of_length_le short]
      simp
    · rw [List.length_map,List.length_take,Nat.min_eq_left (by omega)]
      rfl

/-- The outcome of reading digits: their number where sixteen limbs hold it, and the
overflow error where they do not. -/
def Accumulates (outcome : Outcome) (v : Nat) : Prop :=
  if v < 2 * limit then ∃ limbs,outcome = .ok limbs ∧ limbs.toNat = v else outcome = throwBigintOverflow

theorem Accumulates.ok {outcome : Outcome} {v : Nat} (read : Accumulates outcome v) (room : v < 2 * limit) :
    ∃ limbs,outcome = .ok limbs ∧ limbs.toNat = v := by
  rwa [Accumulates,if_pos room] at read

theorem parseHex_accumulates (s : List Char) : Accumulates (parseHex s) (ofDigits 16 (s.reverse.map place)) := by
  have width : base ^ bigintLimbs = 16 ^ (bigintLimbs * 16) := by
    rw [Nat.mul_comm,pow_mul]
    rfl
  have split := @Nat.ofDigits_append 16 ((s.reverse.take (bigintLimbs * 16)).map place)
    ((s.reverse.drop (bigintLimbs * 16)).map place)
  rw [← List.map_append,List.take_append_drop] at split
  have low := Nat.ofDigits_lt_base_pow_length (by decide) (places_lt (s.reverse.take (bigintLimbs * 16)))
  have zero_iff (c : Char) : (toDigit 16 c).any (· != 0) = true ↔ place c ≠ 0 := by
    unfold place
    cases toDigit 16 c with
    | none => simp
    | some d => simp
  rw [parseHex,hexLimbs_rest,Accumulates,← base_pow,width]
  by_cases high : (s.reverse.drop (bigintLimbs * 16)).any fun c => (toDigit 16 c).any (· != 0)
  · obtain ⟨c,mem,some⟩ := List.any_eq_true.mp high
    have positive : 0 < ofDigits 16 ((s.reverse.drop (bigintLimbs * 16)).map place) := by
      rw [Nat.pos_iff_ne_zero,Ne,value_eq_zero (by decide)]
      exact fun empty => (zero_iff c).mp some (empty _ (List.mem_map_of_mem mem))
    have long : bigintLimbs * 16 ≤ s.reverse.length := by
      by_contra short
      rw [List.drop_of_length_le (by omega)] at mem
      cases mem
    have large := Nat.mul_le_mul_left (16 ^ (bigintLimbs * 16)) positive
    rw [List.length_map,List.length_take,Nat.min_eq_left long] at split
    rw [if_pos high,if_neg (by omega)]
  · have empty : ofDigits 16 ((s.reverse.drop (bigintLimbs * 16)).map place) = 0 := by
      rw [value_eq_zero (by decide)]
      intro d mem
      obtain ⟨c,inside,rfl⟩ := List.mem_map.mp mem
      by_contra some
      exact high (List.any_eq_true.mpr ⟨c,inside,(zero_iff c).mpr some⟩)
    rw [empty,Nat.mul_zero,Nat.add_zero] at split
    have bound : ((s.reverse.take (bigintLimbs * 16)).map place).length ≤ bigintLimbs * 16 := by
      rw [List.length_map]
      exact List.length_take_le _ _
    rw [split,if_neg high,if_pos (Nat.lt_of_lt_of_le low (Nat.pow_le_pow_right (by decide) bound))]
    refine ⟨_,rfl,?_⟩
    rw [toNat_ofWords (hexLimbs_digits _ _) (by rw [hexLimbs_length]),hexLimbs_value]

theorem parseHex_ok {n : Nat} (room : n < 2 * limit) :
    ∃ limbs,parseHex ((shownDigits 16 n).map digitChar) = .ok limbs ∧ limbs.toNat = n := by
  have digits : ∀ d ∈ (shownDigits 16 n).reverse,d < 16 :=
    fun d mem => shownDigits_lt (by decide) (List.mem_reverse.mp mem)
  have value : ofDigits 16 (shownDigits 16 n).reverse = n := by
    unfold shownDigits
    split
    · simp [*]
    · rw [List.reverse_reverse,Nat.ofDigits_digits]
  have read := parseHex_accumulates ((shownDigits 16 n).map digitChar)
  rw [← List.map_reverse,map_place digits,value] at read
  exact read.ok room

theorem trim_plain {s : List Char} (plain : ∀ c ∈ s,isWhitespace c = false) : trim s = s := by
  have kept (t : List Char) (free : ∀ c ∈ t,isWhitespace c = false) :
      t.dropWhile isWhitespace = t := by
    cases t with
    | nil => rfl
    | cons c t => rw [List.dropWhile_cons_of_neg (by rw [free c List.mem_cons_self]; decide)]
  rw [trim,kept s plain,kept s.reverse fun c mem => plain c (List.mem_reverse.mp mem),
    List.reverse_reverse]

theorem shown_magnitude_lt : a.toInt.natAbs < 2 * limit := by
  have range := a.toInt_inRange
  have positive := limit_pos
  unfold InRange at range
  omega

theorem parseShown_ok (low : 2 ≤ radix) (high : radix ≤ 36) :
    ∃ limbs,parseDigits radix ((shownDigits radix a.toInt.natAbs).map digitChar) zero =
      .ok (some limbs) ∧ limbs.toNat = a.toInt.natAbs := by
  have total := @shownDigits_value radix a.toInt.natAbs
  have room := @shown_magnitude_lt a
  have read := @parseDigits_ok radix zero (shownDigits radix a.toInt.natAbs) low high
    (fun d mem => shownDigits_lt low mem)
  rw [toNat_zero,total] at read
  exact read room

theorem stripMinus_shown (high : radix ≤ 36) (low : 2 ≤ radix) :
    stripMinus (shown radix a) =
      (a.isNegative,(shownDigits radix a.toInt.natAbs).map digitChar) := by
  rw [shown]
  cases a.isNegative with
  | true => rfl
  | false =>
    obtain ⟨d,ds,digits⟩ := List.exists_cons_of_ne_nil (@shownDigits_ne_nil radix a.toInt.natAbs)
    have digit : d < radix := shownDigits_lt low (digits ▸ List.mem_cons_self)
    have plain := (digitChar_plain (Nat.lt_of_lt_of_le digit high)).2.1
    simp only [Bool.false_eq_true,if_false,List.nil_append,digits,List.map_cons]
    unfold stripMinus
    split
    · rename_i minus
      exact absurd (List.cons.inj minus).1 plain
    · rfl

theorem shown_ne_nil : shown radix a ≠ [] := by
  intro empty
  rw [shown,List.append_eq_nil_iff,List.map_eq_nil_iff] at empty
  exact shownDigits_ne_nil _ empty.2

/-- A written number with a leading zero has no second character, so none that could be
taken for the tag of a radix. -/
theorem shownDigits_not_tagged (high : radix ≤ 36) (low : 2 ≤ radix) {n : Nat} {tag : Char}
    {rest : List Char} : (shownDigits radix n).map digitChar ≠ '0' :: tag :: rest := by
  intro tagged
  obtain ⟨d,ds,digits,head,tail⟩ := List.map_eq_cons_iff.mp tagged
  have digit : d < radix := shownDigits_lt low (digits ▸ List.mem_cons_self)
  obtain rfl := (digitChar_plain (Nat.lt_of_lt_of_le digit high)).2.2.2 head
  rw [shownDigits_leading digits] at tail
  cases tail

theorem stripHexPrefix_shown {n : Nat} :
    stripHexPrefix ((shownDigits 16 n).map digitChar) = (shownDigits 16 n).map digitChar := by
  unfold stripHexPrefix
  split
  · rename_i tagged
    exact absurd tagged (shownDigits_not_tagged (by decide) (by decide))
  · rename_i tagged
    exact absurd tagged (shownDigits_not_tagged (by decide) (by decide))
  · rfl

theorem fromStringRadix_shown (low : 2 ≤ radix) (high : radix ≤ 36) :
    jsBigintFromStringRadix (shown radix a) radix = .ok a := by
  have cast : ((radix : Int) % 2 ^ 64).toNat = radix := by omega
  rw [jsBigintFromStringRadix,if_neg shown_ne_nil,stripMinus_shown high low]
  dsimp only
  rw [cast]
  by_cases hex : radix = 16
  · subst hex
    obtain ⟨limbs,read,value⟩ := @parseHex_ok a.toInt.natAbs shown_magnitude_lt
    rw [if_pos rfl,if_pos Nat.cast_ofNat,stripHexPrefix_shown,read]
    exact finishParse_ok value
  · obtain ⟨limbs,read,value⟩ := @parseShown_ok a radix low high
    rw [if_neg hex,if_neg (by omega),parseGeneral_of_parseDigits read]
    exact finishParse_ok value

theorem shown_plain (low : 2 ≤ radix) (high : radix ≤ 36) :
    ∀ c ∈ shown radix a,isWhitespace c = false := by
  intro c mem
  rw [shown,List.mem_append] at mem
  obtain sign | digit := mem
  · split at sign
    · rw [List.mem_singleton.mp sign]
      decide
    · cases sign
  · obtain ⟨d,mem,rfl⟩ := List.mem_map.mp digit
    exact (digitChar_plain (Nat.lt_of_lt_of_le (shownDigits_lt low mem) high)).1

theorem prefixRadix_shown : prefixRadix (shown 10 a) = none := by
  rw [shown]
  cases a.isNegative with
  | true => rfl
  | false =>
    unfold prefixRadix
    split
    · rename_i tagged
      exact absurd tagged (shownDigits_not_tagged (by decide) (by decide))
    · rfl

theorem stripSign_shown :
    stripSign (shown 10 a) = (a.isNegative,(shownDigits 10 a.toInt.natAbs).map digitChar) := by
  have minus := @stripMinus_shown a 10 (by decide) (by decide)
  unfold stripSign
  split
  · rename_i rest signed
    rw [signed] at minus
    exact minus
  · rename_i rest signed
    rw [signed] at minus
    obtain ⟨d,mem,plus⟩ : ∃ d ∈ shownDigits 10 a.toInt.natAbs,digitChar d = '+' := by
      have tail := (Prod.mk.inj minus).2
      exact List.mem_map.mp (tail ▸ List.mem_cons_self)
    have digit : d < 10 := shownDigits_lt (by decide) mem
    exact absurd plus (digitChar_plain (by omega)).2.2.1
  · rename_i notMinus _
    unfold stripMinus at minus
    split at minus
    · rename_i rest signed
      exact absurd signed (notMinus rest)
    · exact minus

theorem parseBigintString_shown : parseBigintString (shown 10 a) = .ok (some a) := by
  obtain ⟨limbs,read,value⟩ := @parseShown_ok a 10 (by decide) (by decide)
  have digits : (shownDigits 10 a.toInt.natAbs).map digitChar ≠ [] := by
    rw [Ne,List.map_eq_nil_iff]
    exact shownDigits_ne_nil _
  rw [parseBigintString,trim_plain (shown_plain (by decide) (by decide))]
  dsimp only
  rw [if_neg shown_ne_nil,prefixRadix_shown,stripSign_shown]
  dsimp only
  rw [if_neg digits,parseRadixDigits,read]
  dsimp only
  rw [finishParse_ok value]
  rfl

end Reading

/-- At most one leading minus, then digits of the radix, with a leading zero only in `0`. -/
def WellWritten (radix : Nat) (text : List Char) : Prop :=
  ∃ (negative : Bool) (digits : List Char),
    text = (if negative then '-' :: digits else digits) ∧ digits ≠ [] ∧
      (∀ c ∈ digits,∃ d < radix,toDigit radix c = some d) ∧ '-' ∉ digits ∧
      (digits.head? = some '0' → digits = ['0'])

theorem shown_wellWritten (low : 2 ≤ radix) (high : radix ≤ 36) :
    WellWritten radix (shown radix a) := by
  refine ⟨a.isNegative,(shownDigits radix a.toInt.natAbs).map digitChar,?_,?_,?_,?_,?_⟩
  · rw [shown]
    split <;> rfl
  · rw [Ne,List.map_eq_nil_iff]
    exact shownDigits_ne_nil _
  · intro c mem
    obtain ⟨d,inside,rfl⟩ := List.mem_map.mp mem
    have digit := shownDigits_lt low inside
    exact ⟨d,digit,toDigit_digitChar digit high⟩
  · intro mem
    obtain ⟨d,inside,minus⟩ := List.mem_map.mp mem
    exact (digitChar_plain (Nat.lt_of_lt_of_le (shownDigits_lt low inside) high)).2.1 minus
  · intro leading
    obtain ⟨tail,text⟩ := List.head?_eq_some_iff.mp leading
    cases tail with
    | nil => exact text
    | cons tag rest => exact absurd text (shownDigits_not_tagged high low)

/-- What is printed in a radix reads back as the same value. -/
theorem text_roundTrip (a : Limbs) (radix : Nat) (low : 2 ≤ radix) (high : radix ≤ 36) :
    jsBigintFromStringRadix (limbsToRadixString a radix) radix = .ok a ∧
      parseBigintString (limbsToDecimalString a) = .ok (some a) ∧
      WellWritten radix (limbsToRadixString a radix) ∧
      WellWritten 10 (limbsToDecimalString a) := by
  rw [limbsToRadixString_eq low high,limbsToDecimalString_eq]
  exact ⟨fromStringRadix_shown low high,parseBigintString_shown,shown_wellWritten low high,
    shown_wellWritten (by decide) (by decide)⟩

/-- The least value, whose magnitude has no positive counterpart, in radix thirty-six. -/
theorem text_roundTrip_least :
    jsBigintFromStringRadix (limbsToRadixString least 36) (36 : Nat) = .ok least ∧
      WellWritten 36 (limbsToRadixString least 36) :=
  have roundTrip := text_roundTrip least 36 (by decide) (by decide)
  ⟨roundTrip.1,roundTrip.2.2.1⟩

end Perry.Runtime.BigInt
