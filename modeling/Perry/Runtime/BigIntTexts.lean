import Mathlib.Data.List.TakeWhile
import Perry.Runtime.BigIntConvert

/-! Which texts the readers of `bigint/convert.rs` take, and for which number. Both readers
build a magnitude digit by digit and raise the overflow error where sixteen limbs end. -/
namespace Perry.Runtime.BigInt

open Perry.Words
open Nat (ofDigits)
open Limbs

variable {limbs : Limbs} {radix d v : Nat}

/-- The number a row of digits denotes, the highest first, after the digits already read. -/
def readOn (radix v : Nat) (ds : List Nat) : Nat := ds.foldl (fun v d => v * radix + d) v

/-- The digits among the characters. -/
def digitsOf (radix : Nat) (cs : List Char) : List Nat := cs.filterMap (toDigit radix)

def digitsValue (radix : Nat) (cs : List Char) : Nat := readOn radix 0 (digitsOf radix cs)

/-- A magnitude with its sign. -/
def withSign (negative : Bool) (v : Nat) : Int := if negative then -(v : Int) else v

section Accumulating

theorem accumulate_overflow (full : 2 * limit ≤ limbs.toNat * radix + d) :
    accumulate radix limbs d = throwBigintOverflow := by
  have value := @mulAdd_value base limbs.words radix d
  rw [limbs.size,base_pow] at value
  change _ = limbs.toNat * radix + d at value
  have digits : Digits base (mulAdd base radix limbs.words d).1 := mulAdd_digits (by decide)
  have low := digits.value_lt one_lt_base
  rw [mulAdd_length,limbs.size,base_pow] at low
  rw [accumulate,if_pos]
  intro spent
  rw [spent,Nat.mul_zero] at value
  omega

/-- What is read once sixteen limbs are exceeded cannot bring the number back. -/
theorem overflows_on (positive : 0 < radix) (full : 2 * limit ≤ v) (ds : List Nat) :
    2 * limit ≤ readOn radix v ds := Nat.le_trans full (foldl_ge positive v ds)

theorem parseGeneral_accumulates (positive : 0 < radix) (cs : List Char) (limbs : Limbs) :
    Accumulates (parseGeneral radix cs limbs) (readOn radix limbs.toNat (digitsOf radix cs)) := by
  induction cs generalizing limbs with
  | nil =>
    rw [Accumulates,digitsOf,List.filterMap_nil,readOn,List.foldl_nil,if_pos limbs.toNat_lt]
    exact ⟨limbs,rfl,rfl⟩
  | cons c cs ih =>
    rw [parseGeneral,digitsOf]
    cases digit : toDigit radix c with
    | none =>
      rw [List.filterMap_cons_none digit]
      exact ih limbs
    | some d =>
      rw [List.filterMap_cons_some digit]
      dsimp only
      by_cases room : limbs.toNat * radix + d < 2 * limit
      · obtain ⟨next,step,value⟩ := accumulate_ok room
        rw [step,readOn,List.foldl_cons,← value]
        exact ih next
      · have full := overflows_on positive (Nat.le_of_not_lt room) (cs.filterMap (toDigit radix))
        rw [accumulate_overflow (Nat.le_of_not_lt room),Accumulates,if_neg]
        · rfl
        · rw [readOn,List.foldl_cons]
          exact Nat.not_lt.mpr full

/-- The range check and the sign turn a magnitude into the exact integer. -/
theorem Accumulates.finish {outcome : Outcome} (read : Accumulates outcome v) (negative : Bool) :
    Exact (outcome.bind fun limbs => finishParse limbs negative) (withSign negative v) := by
  have positive := limit_pos
  unfold Accumulates at read
  split at read
  · obtain ⟨limbs,rfl,value⟩ := read
    have fits := @magnitudeFits1024_iff limbs.words negative limbs.small (Nat.le_of_eq limbs.size.symm)
    change _ ↔ limbs.toNat < limit ∨ negative ∧ limbs.toNat = limit at fits
    have zeros : limbs.words.all (· == 0) ↔ limbs = zero := by
      rw [← toNat_eq_zero_iff,Limbs.toNat,value_eq_zero (by decide)]
      simp
    rw [value] at fits
    change Exact (finishParse limbs negative) _
    rw [finishParse]
    split
    · rename_i outside
      rw [fits] at outside
      apply Exact.overflow
      unfold InRange withSign
      cases negative <;> simp at outside ⊢ <;> omega
    · rename_i inside
      rw [not_not,fits] at inside
      have range : InRange (withSign negative v) := by
        unfold InRange withSign
        cases negative <;> simp at inside ⊢ <;> omega
      have magnitude : limbs.toNat = (withSign negative v).natAbs := by
        unfold withSign
        cases negative <;> simp [value]
      have below : negative = true → withSign negative v ≤ 0 := by
        intro below
        simp [withSign,below]
      have above : ¬ negative = true → 0 ≤ withSign negative v := by
        intro above
        simp [withSign,above]
      have signed := toInt_restoreSign magnitude range below above
      have test : (negative = true ∧ ¬ limbs.words.all (· == 0) = true) ↔ (negative = true ∧ limbs ≠ zero) := by
        rw [zeros]
      split at signed
      · rename_i flipped
        rw [if_pos (test.mpr flipped)]
        exact .ok signed
      · rename_i kept
        rw [if_neg fun flipped => kept (test.mp flipped)]
        exact .ok signed
  · rename_i full
    rw [read]
    apply Exact.overflow
    unfold InRange withSign
    split <;> omega

end Accumulating

section Radix16

/-- `js_bigint_from_string_radix` for radix sixteen, with the digits read by its general branch. -/
def fromHexGeneral (s : List Char) : Outcome :=
  if s = [] then .ok (writeI64 0)
  else
    let signed := stripMinus s
    match parseGeneral 16 (stripHexPrefix signed.2) zero with
    | .error e => .error e
    | .ok limbs => finishParse limbs signed.1

/-- The characters both branches are given. -/
def hexBody (s : List Char) : List Char := stripHexPrefix (stripMinus s).2

/-- No character that is not a hex digit stands behind the first digit that counts. -/
def Unbroken (cs : List Char) : Prop := ∀ c ∈ cs.dropWhile (place · = 0),(toDigit 16 c).isSome

instance (cs : List Char) : Decidable (Unbroken cs) := List.decidableBAll _ _

/-- The number of the hex path, in which every character has its place. -/
def placedOn (v : Nat) (cs : List Char) : Nat := readOn 16 v (cs.map place)

theorem placed_eq (cs : List Char) : ofDigits 16 (cs.reverse.map place) = placedOn 0 cs := by
  rw [placedOn,readOn,Nat.ofDigits_eq_foldr,List.map_reverse,List.foldr_reverse]
  congr 1
  funext v d
  simp only [Nat.cast_id]
  ring

theorem Exact.value {c : Limbs} {z : Int} (exact : Exact (.ok c) z) : c.toInt = z := by
  unfold Exact at exact
  split at exact
  · obtain ⟨d,same,value⟩ := exact
    cases same
    exact value
  · cases exact

theorem hexFast_exact (s : List Char) :
    Exact (jsBigintFromStringRadix s 16) (withSign (stripMinus s).1 (placedOn 0 (hexBody s))) := by
  rw [jsBigintFromStringRadix]
  split
  · rename_i empty
    rw [empty]
    exact .ok (toInt_writeI64 (by decide) (by decide))
  · have read := parseHex_accumulates (hexBody s)
    rw [placed_eq] at read
    have bound := read.finish (stripMinus s).1
    have cast : ((16 : Int) % 2 ^ 64).toNat = 16 := rfl
    dsimp only
    rw [cast,if_pos rfl,if_pos rfl,← hexBody]
    cases parsed : parseHex (hexBody s) <;> rw [parsed] at bound <;> exact bound

theorem hexGeneral_exact (s : List Char) :
    Exact (fromHexGeneral s) (withSign (stripMinus s).1 (digitsValue 16 (hexBody s))) := by
  rw [fromHexGeneral]
  split
  · rename_i empty
    rw [empty]
    exact .ok (toInt_writeI64 (by decide) (by decide))
  · have read := parseGeneral_accumulates (by decide : 0 < 16) (hexBody s) zero
    rw [toNat_zero] at read
    have bound := read.finish (stripMinus s).1
    dsimp only
    rw [← hexBody]
    cases parsed : parseGeneral 16 (hexBody s) zero <;> rw [parsed] at bound <;> exact bound

theorem readOn_mono (radix : Nat) {v w : Nat} (below : v ≤ w) (ds : List Nat) : readOn radix v ds ≤ readOn radix w ds := by
  induction ds generalizing v w with
  | nil => exact below
  | cons d ds ih => exact ih (Nat.add_le_add_right (Nat.mul_le_mul_right radix below) d)

theorem digits_le_placed (v : Nat) (cs : List Char) : readOn 16 v (digitsOf 16 cs) ≤ placedOn v cs := by
  induction cs generalizing v with
  | nil => exact Nat.le_refl v
  | cons c cs ih =>
    cases digit : toDigit 16 c with
    | none =>
      rw [digitsOf,List.filterMap_cons_none digit]
      have shifted : placedOn v (c :: cs) = placedOn (v * 16) cs := by
        simp [placedOn,readOn,place,digit]
      rw [shifted]
      exact Nat.le_trans (readOn_mono 16 (Nat.le_mul_of_pos_right v (by decide)) _) (ih (v * 16))
    | some d =>
      rw [digitsOf,List.filterMap_cons_some digit]
      have same : placedOn v (c :: cs) = placedOn (v * 16 + d) cs := by
        simp [placedOn,readOn,place,digit]
      rw [same]
      exact ih (v * 16 + d)

theorem readOn_strict (positive : 0 < radix) {v w : Nat} (below : v < w) (ds : List Nat) :
    readOn radix v ds < readOn radix w ds := by
  induction ds generalizing v w with
  | nil => exact below
  | cons d ds ih => exact ih (Nat.add_lt_add_right (Nat.mul_lt_mul_of_pos_right below positive) d)

/-- Once a digit counts, the places agree with the digits as long as nothing is skipped. -/
theorem placed_eq_iff_all {v : Nat} (counts : 0 < v) (cs : List Char) :
    readOn 16 v (digitsOf 16 cs) = placedOn v cs ↔ ∀ c ∈ cs,(toDigit 16 c).isSome := by
  induction cs generalizing v with
  | nil => simp [placedOn,digitsOf,readOn]
  | cons c cs ih =>
    cases digit : toDigit 16 c with
    | none =>
      have shifted : placedOn v (c :: cs) = placedOn (v * 16) cs := by
        simp [placedOn,readOn,place,digit]
      have strict := readOn_strict (by decide : 0 < 16) (by omega : v < v * 16) (digitsOf 16 cs)
      have above := digits_le_placed (v * 16) cs
      rw [digitsOf,List.filterMap_cons_none digit,shifted]
      simp only [List.mem_cons,forall_eq_or_imp,digit,Option.isSome_none,Bool.false_eq_true,false_and,iff_false]
      exact Nat.ne_of_lt (Nat.lt_of_lt_of_le strict above)
    | some d =>
      have same : placedOn v (c :: cs) = placedOn (v * 16 + d) cs := by
        simp [placedOn,readOn,place,digit]
      rw [digitsOf,List.filterMap_cons_some digit,same]
      simp only [List.mem_cons,forall_eq_or_imp,digit,Option.isSome_some,true_and]
      have still : 0 < v * 16 + d := by omega
      exact ih still

theorem placed_eq_iff (cs : List Char) : digitsValue 16 cs = placedOn 0 cs ↔ Unbroken cs := by
  induction cs with
  | nil => simp [placedOn,digitsOf,readOn,digitsValue,Unbroken]
  | cons c cs ih =>
    by_cases idle : place c = 0
    · have dropped : Unbroken (c :: cs) ↔ Unbroken cs := by
        rw [Unbroken,List.dropWhile_cons_of_pos (by simpa using idle),Unbroken]
      have placed : placedOn 0 (c :: cs) = placedOn 0 cs := by simp [placedOn,readOn,idle]
      have digits : digitsValue 16 (c :: cs) = digitsValue 16 cs := by
        rw [digitsValue,digitsOf]
        cases digit : toDigit 16 c with
        | none => rw [List.filterMap_cons_none digit,digitsValue,digitsOf]
        | some d =>
          rw [place,digit,Option.getD_some] at idle
          rw [List.filterMap_cons_some digit,idle]
          simp [digitsValue,readOn,digitsOf]
      rw [dropped,placed,digits,ih]
    · obtain ⟨d,digit⟩ : ∃ d,toDigit 16 c = some d := by
        rw [← Option.isSome_iff_exists]
        by_contra none
        rw [Option.not_isSome_iff_eq_none] at none
        exact idle (by rw [place,none,Option.getD_none])
      have value : place c = d := by rw [place,digit,Option.getD_some]
      have kept : Unbroken (c :: cs) ↔ ∀ c ∈ cs,(toDigit 16 c).isSome := by
        rw [Unbroken,List.dropWhile_cons_of_neg (by simpa using idle)]
        simp [digit]
      have placed : placedOn 0 (c :: cs) = placedOn d cs := by simp [placedOn,readOn,value]
      have digits : digitsValue 16 (c :: cs) = readOn 16 d (digitsOf 16 cs) := by
        rw [digitsValue,digitsOf,List.filterMap_cons_some digit]
        simp [readOn,digitsOf]
      rw [kept,placed,digits,placed_eq_iff_all (by omega)]

theorem withSign_inj {negative : Bool} {v w : Nat} (same : withSign negative v = withSign negative w) : v = w := by
  unfold withSign at same
  split at same <;> omega

theorem outside_mono {negative : Bool} {v w : Nat} (below : v ≤ w) (outside : ¬ InRange (withSign negative v)) :
    ¬ InRange (withSign negative w) := by
  unfold InRange withSign at *
  split at outside
  · rename_i flipped
    rw [if_pos flipped]
    omega
  · rename_i kept
    rw [if_neg kept]
    omega

/-- In radix sixteen the two branches agree exactly when nothing is skipped behind the first
digit that counts, or when the digits alone are too large for either. -/
theorem hexPaths_agree_iff (s : List Char) :
    jsBigintFromStringRadix s 16 = fromHexGeneral s ↔
      Unbroken (hexBody s) ∨ ¬ InRange (withSign (stripMinus s).1 (digitsValue 16 (hexBody s))) := by
  have fast := hexFast_exact s
  have general := hexGeneral_exact s
  constructor
  · intro same
    by_contra neither
    obtain ⟨broken,inside⟩ := not_or.mp neither
    rw [not_not] at inside
    rw [Exact,if_pos inside] at general
    obtain ⟨c,found,value⟩ := general
    rw [same,found] at fast
    have equal := fast.value
    rw [value] at equal
    apply broken
    rw [← placed_eq_iff]
    exact withSign_inj equal
  · rintro (unbroken | outside)
    · rw [← (placed_eq_iff _).mpr unbroken] at fast
      exact fast.unique general
    · have above := outside_mono (digits_le_placed 0 (hexBody s)) outside
      rw [Exact,if_neg above] at fast
      rw [Exact,if_neg outside] at general
      rw [fast,general]

/-- A separator shifts the digits before it in one branch and not in the other. -/
theorem hexPaths_separator : jsBigintFromStringRadix ['1','_','0'] 16 ≠ fromHexGeneral ['1','_','0'] := by
  decide +kernel

end Radix16

section Grammar

/-- ECMAScript white space and line terminators. -/
def ecmaWhiteSpace (c : Char) : Bool :=
  (9 ≤ c.toNat ∧ c.toNat ≤ 13) ∨ (0x2000 ≤ c.toNat ∧ c.toNat ≤ 0x200a) ∨
    c.toNat ∈ [0x20,0xa0,0x1680,0x2028,0x2029,0x202f,0x205f,0x3000,0xfeff]

def trimBy (blank : Char → Bool) (s : List Char) : List Char :=
  ((s.dropWhile blank).reverse.dropWhile blank).reverse

def ecmaTrim (s : List Char) : List Char := trimBy ecmaWhiteSpace s

/-- At least one digit of the radix, and nothing else. -/
structure Written (radix : Nat) (cs : List Char) (n : Nat) : Prop where
  some : cs ≠ []
  digits : ∀ c ∈ cs,(toDigit radix c).isSome
  value : digitsValue radix cs = n

def tagRadix (tag : Char) : Option Nat :=
  if tag = 'x' ∨ tag = 'X' then some 16
  else if tag = 'o' ∨ tag = 'O' then some 8
  else if tag = 'b' ∨ tag = 'B' then some 2
  else none

/-- The texts, without white space around them, that denote an integer. -/
inductive StringNumber : List Char → Int → Prop
  | empty : StringNumber [] 0
  | decimal {cs : List Char} {n : Nat} (written : Written 10 cs n) : StringNumber cs n
  | plus {cs : List Char} {n : Nat} (written : Written 10 cs n) : StringNumber ('+' :: cs) n
  | minus {cs : List Char} {n : Nat} (written : Written 10 cs n) : StringNumber ('-' :: cs) (-n)
  | tagged {tag : Char} {radix : Nat} {cs : List Char} {n : Nat} (named : tagRadix tag = some radix)
    (written : Written radix cs n) : StringNumber ('0' :: tag :: cs) n

variable {t cs : List Char} {n : Nat} {z : Int}

/-- Sign, radix and digits as the reader takes a text apart. -/
def parts (t : List Char) : Bool × Nat × List Char :=
  match prefixRadix t with
  | some (radix,digits) => (false,radix,digits)
  | none => ((stripSign t).1,10,(stripSign t).2)

/-- The integer where it is representable, and the overflow error where it is not. -/
def Parsed (result : Except Error (Option Limbs)) (z : Int) : Prop :=
  if InRange z then ∃ a,result = .ok (some a) ∧ a.toInt = z
  else result = .error (.rangeError maxBigintSizeMessage)

/-- A syntax error exactly off the grammar, and on it the exact value or the overflow error. -/
def StringToBigInt (raw : List Char) (result : Except Error (Option Limbs)) : Prop :=
  (result = .ok none ↔ ¬ ∃ z,StringNumber (ecmaTrim raw) z) ∧
    ∀ z,StringNumber (ecmaTrim raw) z → Parsed result z

/-- Digits that reach the sixteen limbs' end stand in front of a character that is no digit. -/
def Premature (t : List Char) : Prop :=
  ¬ (∀ c ∈ (parts t).2.2,(toDigit (parts t).2.1 c).isSome) ∧
    2 * limit ≤ digitsValue (parts t).2.1 ((parts t).2.2.takeWhile fun c => (toDigit (parts t).2.1 c).isSome)

theorem prefixRadix_tagged (tag : Char) (cs : List Char) :
    prefixRadix ('0' :: tag :: cs) = (tagRadix tag).map fun radix => (radix,cs) := by
  rw [prefixRadix,tagRadix]
  split
  · rfl
  · split
    · rfl
    · split <;> rfl

theorem prefixRadix_some {radix : Nat} (named : prefixRadix t = some (radix,cs)) :
    ∃ tag,t = '0' :: tag :: cs ∧ tagRadix tag = some radix := by
  unfold prefixRadix at named
  split at named
  · rename_i tag digits
    have tagged := prefixRadix_tagged tag digits
    rw [prefixRadix,named] at tagged
    obtain ⟨r,found,same⟩ := Option.map_eq_some_iff.mp tagged.symm
    cases same
    exact ⟨tag,rfl,found⟩
  · cases named

theorem tagRadix_decimal {tag : Char} (named : tagRadix tag = some radix) : toDigit 10 tag = none := by
  unfold tagRadix at named
  split at named
  · rename_i hex
    rcases hex with rfl | rfl <;> decide
  · split at named
    · rename_i octal
      rcases octal with rfl | rfl <;> decide
    · split at named
      · rename_i binary
        rcases binary with rfl | rfl <;> decide
      · cases named

theorem stripSign_decimal (written : Written 10 t n) : stripSign t = (false,t) := by
  unfold stripSign
  split
  · rename_i rest
    have minus := written.digits '-' List.mem_cons_self
    cases minus
  · rename_i rest
    have plus := written.digits '+' List.mem_cons_self
    cases plus
  · rfl

theorem prefixRadix_decimal (written : Written 10 t n) : prefixRadix t = none := by
  by_contra some
  obtain ⟨⟨radix,rest⟩,named⟩ := Option.ne_none_iff_exists'.mp some
  obtain ⟨tag,rfl,tagged⟩ := prefixRadix_some named
  have digit := written.digits tag (List.mem_cons_of_mem _ List.mem_cons_self)
  rw [tagRadix_decimal tagged] at digit
  cases digit

/-- A text of the grammar is taken apart as the grammar does. -/
theorem stringNumber_iff (some : t ≠ []) :
    StringNumber t z ↔ ∃ n,Written (parts t).2.1 (parts t).2.2 n ∧ z = withSign (parts t).1 n := by
  constructor
  · intro number
    cases number with
    | empty => exact absurd rfl some
    | @decimal _ n written =>
      refine ⟨n,?_,?_⟩
      · simpa only [parts,prefixRadix_decimal written,stripSign_decimal written] using written
      · simp [parts,prefixRadix_decimal written,stripSign_decimal written,withSign]
    | plus written => exact ⟨_,written,rfl⟩
    | minus written => exact ⟨_,written,rfl⟩
    | @tagged tag radix cs n named written =>
      have taken := prefixRadix_tagged tag cs
      rw [named,Option.map_some] at taken
      refine ⟨n,?_,?_⟩
      · simpa only [parts,taken] using written
      · simp [parts,taken,withSign]
  · rintro ⟨n,written,rfl⟩
    unfold parts at written ⊢
    split at written
    · rename_i radix digits named
      obtain ⟨tag,rfl,tagged⟩ := prefixRadix_some named
      exact .tagged tagged written
    · unfold stripSign at written ⊢
      split at written
      · exact .minus written
      · exact .plus written
      · exact .decimal written

theorem stringNumber_unique {w : Int} (first : StringNumber t z) (second : StringNumber t w) : z = w := by
  by_cases some : t = []
  · subst some
    have plain {u : Int} (number : StringNumber [] u) : u = 0 := by
      cases number with
      | empty => rfl
      | decimal written => exact absurd rfl written.some
    rw [plain first,plain second]
  · obtain ⟨n,written,rfl⟩ := (stringNumber_iff some).mp first
    obtain ⟨m,again,rfl⟩ := (stringNumber_iff some).mp second
    rw [← written.value,← again.value]

theorem parts_radix_pos (t : List Char) : 0 < (parts t).2.1 := by
  unfold parts
  split
  · rename_i radix digits named
    obtain ⟨tag,-,tagged⟩ := prefixRadix_some named
    unfold tagRadix at tagged
    split at tagged
    · cases tagged
      exact Nat.succ_pos 15
    · split at tagged
      · cases tagged
        exact Nat.succ_pos 7
      · split at tagged <;> cases tagged
        exact Nat.succ_pos 1
  · exact Nat.succ_pos 9

theorem parseBigintString_eq (raw : List Char) :
    parseBigintString raw =
      if trim raw = [] then .ok (some zero)
      else if (parts (trim raw)).2.2 = [] then .ok none
      else parseRadixDigits (parts (trim raw)).2.2 (parts (trim raw)).2.1 (parts (trim raw)).1 := by
  rw [parseBigintString]
  dsimp only
  by_cases empty : trim raw = []
  · rw [if_pos empty,if_pos empty]
  · rw [if_neg empty,if_neg empty,parts]
    cases prefixRadix (trim raw) <;> rfl

/-- The strict reader stops at whatever comes first, a character that is no digit or the end
of the sixteen limbs. -/
theorem parseDigits_scan (positive : 0 < radix) (cs : List Char) (limbs : Limbs) :
    let good := cs.takeWhile fun c => (toDigit radix c).isSome
    (2 * limit ≤ readOn radix limbs.toNat (digitsOf radix good) →
      parseDigits radix cs limbs = .error (.rangeError maxBigintSizeMessage)) ∧
    (readOn radix limbs.toNat (digitsOf radix good) < 2 * limit →
      if cs.all fun c => (toDigit radix c).isSome then
        ∃ next,parseDigits radix cs limbs = .ok (some next) ∧ next.toNat = readOn radix limbs.toNat (digitsOf radix cs)
      else parseDigits radix cs limbs = .ok none) := by
  induction cs generalizing limbs with
  | nil =>
    refine ⟨fun full => absurd limbs.toNat_lt (Nat.not_lt.mpr full),fun _ => ?_⟩
    exact ⟨limbs,rfl,rfl⟩
  | cons c cs ih =>
    rw [parseDigits]
    cases digit : toDigit radix c with
    | none =>
      rw [List.takeWhile_cons_of_neg (by simp [digit])]
      refine ⟨fun full => absurd limbs.toNat_lt (Nat.not_lt.mpr full),fun _ => ?_⟩
      rw [if_neg (by simp [digit])]
    | some d =>
      rw [List.takeWhile_cons_of_pos (by simp [digit])]
      simp only [digitsOf,List.filterMap_cons_some digit,List.all_cons,digit,Option.isSome_some,
        Bool.true_and,readOn,List.foldl_cons]
      by_cases room : limbs.toNat * radix + d < 2 * limit
      · obtain ⟨next,step,value⟩ := accumulate_ok room
        rw [step,← value]
        exact ih next
      · have full := Nat.le_of_not_lt room
        rw [accumulate_overflow full]
        refine ⟨fun _ => rfl,fun below => absurd below (Nat.not_lt.mpr ?_)⟩
        exact overflows_on positive full _

theorem parseDigits_start (positive : 0 < radix) (cs : List Char) :
    let good := cs.takeWhile fun c => (toDigit radix c).isSome
    (2 * limit ≤ digitsValue radix good →
      parseDigits radix cs zero = .error (.rangeError maxBigintSizeMessage)) ∧
    (digitsValue radix good < 2 * limit →
      if cs.all fun c => (toDigit radix c).isSome then
        ∃ next,parseDigits radix cs zero = .ok (some next) ∧ next.toNat = digitsValue radix cs
      else parseDigits radix cs zero = .ok none) := by
  have scan := parseDigits_scan positive cs zero
  rwa [toNat_zero] at scan

theorem Exact.parsed {outcome : Outcome} (exact : Exact outcome z) : Parsed (outcome.map some) z := by
  unfold Exact at exact
  unfold Parsed
  split at exact
  · rename_i inside
    obtain ⟨c,rfl,value⟩ := exact
    rw [if_pos inside]
    exact ⟨c,rfl,value⟩
  · rename_i outside
    rw [if_neg outside,exact]
    rfl

theorem Parsed.ne_none {result : Except Error (Option Limbs)} (parsed : Parsed result z) : result ≠ .ok none := by
  unfold Parsed at parsed
  split at parsed
  · obtain ⟨a,rfl,-⟩ := parsed
    simp
  · rw [parsed]
    simp

theorem parse_number {raw : List Char} (number : StringNumber (trim raw) z) : Parsed (parseBigintString raw) z := by
  rw [parseBigintString_eq]
  by_cases empty : trim raw = []
  · rw [empty] at number
    rw [if_pos empty,stringNumber_unique number .empty,Parsed,if_pos (toInt_zero ▸ zero.toInt_inRange)]
    exact ⟨zero,rfl,toInt_zero⟩
  · obtain ⟨n,written,rfl⟩ := (stringNumber_iff empty).mp number
    have scan := parseDigits_start (parts_radix_pos (trim raw)) (parts (trim raw)).2.2
    have whole : ((parts (trim raw)).2.2.takeWhile fun c => (toDigit (parts (trim raw)).2.1 c).isSome) =
        (parts (trim raw)).2.2 := List.takeWhile_eq_self_iff.mpr written.digits
    rw [if_neg empty,if_neg written.some,parseRadixDigits]
    dsimp only at scan
    rw [whole,if_pos (List.all_eq_true.mpr written.digits),written.value] at scan
    by_cases room : n < 2 * limit
    · obtain ⟨next,read,value⟩ := scan.2 room
      rw [read]
      have accumulated : Accumulates (.ok next) n := by
        rw [Accumulates,if_pos room]
        exact ⟨next,rfl,value⟩
      exact (accumulated.finish (parts (trim raw)).1).parsed
    · have accumulated : Accumulates throwBigintOverflow n := by
        rw [Accumulates,if_neg room]
      rw [scan.1 (Nat.le_of_not_lt room)]
      exact (accumulated.finish (parts (trim raw)).1).parsed

theorem parse_premature {raw : List Char} (premature : Premature (trim raw)) :
    parseBigintString raw = .error (.rangeError maxBigintSizeMessage) := by
  obtain ⟨bad,full⟩ := premature
  have some : (parts (trim raw)).2.2 ≠ [] := by
    intro empty
    rw [empty] at bad
    exact bad (List.forall_mem_nil _)
  have present : trim raw ≠ [] := by
    intro empty
    rw [empty] at some
    exact some rfl
  have scan := parseDigits_start (parts_radix_pos (trim raw)) (parts (trim raw)).2.2
  rw [parseBigintString_eq,if_neg present,if_neg some,parseRadixDigits,scan.1 full]

theorem parse_none {raw : List Char} (absent : ¬ ∃ z,StringNumber (trim raw) z) (timely : ¬ Premature (trim raw)) :
    parseBigintString raw = .ok none := by
  have present : trim raw ≠ [] := by
    intro empty
    rw [empty] at absent
    exact absent ⟨0,.empty⟩
  have unwritten (n : Nat) : ¬ Written (parts (trim raw)).2.1 (parts (trim raw)).2.2 n :=
    fun written => absent ⟨_,(stringNumber_iff present).mpr ⟨n,written,rfl⟩⟩
  rw [parseBigintString_eq,if_neg present]
  split
  · rfl
  · rename_i some
    have bad : ¬ ∀ c ∈ (parts (trim raw)).2.2,(toDigit (parts (trim raw)).2.1 c).isSome :=
      fun digits => unwritten _ ⟨some,digits,rfl⟩
    have room := Nat.lt_of_not_le fun full => timely ⟨bad,full⟩
    have scan := (parseDigits_start (parts_radix_pos (trim raw)) (parts (trim raw)).2.2).2
    rw [if_neg (bad ∘ List.all_eq_true.mp)] at scan
    rw [parseRadixDigits,scan room]

theorem trimBy_split (blank : Char → Bool) (s : List Char) :
    ∃ front back,s = front ++ trimBy blank s ++ back ∧ (∀ c ∈ front,blank c) ∧ ∀ c ∈ back,blank c := by
  have start := List.takeWhile_append_dropWhile (p := blank) (l := s)
  have rest := List.takeWhile_append_dropWhile (p := blank) (l := (s.dropWhile blank).reverse)
  refine ⟨s.takeWhile blank,((s.dropWhile blank).reverse.takeWhile blank).reverse,?_,?_,?_⟩
  · rw [trimBy,List.append_assoc,← List.reverse_append,rest,List.reverse_reverse,start]
  · exact fun c mem => List.mem_takeWhile_imp mem
  · exact fun c mem => List.mem_takeWhile_imp (List.mem_reverse.mp mem)

/-- White space of either class. -/
def blankChar (c : Char) : Bool := isWhitespace c || ecmaWhiteSpace c

theorem blankChar_digit {c : Char} (digit : (toDigit radix c).isSome) : blankChar c = false := by
  obtain ⟨d,found⟩ := Option.isSome_iff_exists.mp digit
  have known : charDigit c = some d := (Option.filter_eq_some_iff.mp found).1
  have range : (0x30 ≤ c.toNat ∧ c.toNat ≤ 0x39) ∨ (0x61 ≤ c.toNat ∧ c.toNat ≤ 0x7a) ∨
      (0x41 ≤ c.toNat ∧ c.toNat ≤ 0x5a) := by
    unfold charDigit at known
    split at known
    · rename_i inside
      exact .inl inside
    · split at known
      · rename_i inside
        exact .inr (.inl inside)
      · split at known
        · rename_i inside
          exact .inr (.inr inside)
        · cases known
  unfold blankChar isWhitespace ecmaWhiteSpace
  simp only [List.mem_cons,List.not_mem_nil,or_false,Bool.or_eq_false_iff,decide_eq_false_iff_not]
  omega

theorem stringNumber_plain (number : StringNumber t z) : ∀ c ∈ t,blankChar c = false := by
  have digits {radix : Nat} {cs : List Char} {n : Nat} (written : Written radix cs n) : ∀ c ∈ cs,blankChar c = false :=
    fun c mem => blankChar_digit (written.digits c mem)
  cases number with
  | empty => exact List.forall_mem_nil _
  | decimal written => exact digits written
  | plus written => exact List.forall_mem_cons.mpr ⟨by decide,digits written⟩
  | minus written => exact List.forall_mem_cons.mpr ⟨by decide,digits written⟩
  | @tagged tag radix cs n named written =>
    refine List.forall_mem_cons.mpr ⟨by decide,List.forall_mem_cons.mpr ⟨?_,digits written⟩⟩
    unfold tagRadix at named
    split at named
    · rename_i hex
      rcases hex with rfl | rfl <;> decide
    · split at named
      · rename_i octal
        rcases octal with rfl | rfl <;> decide
      · split at named
        · rename_i binary
          rcases binary with rfl | rfl <;> decide
        · cases named

/-- A text without white space is all that is left of its surroundings. -/
theorem trimBy_eq_filter {blank : Char → Bool} (narrow : ∀ c,blank c → blankChar c) {raw : List Char}
    (plain : ∀ c ∈ trimBy blank raw,blankChar c = false) : trimBy blank raw = raw.filter (!blankChar ·) := by
  obtain ⟨front,back,split,before,after⟩ := trimBy_split blank raw
  have gone {part : List Char} (blanks : ∀ c ∈ part,blank c) : part.filter (!blankChar ·) = [] := by
    rw [List.filter_eq_nil_iff]
    intro c mem
    simp [narrow c (blanks c mem)]
  have kept : (trimBy blank raw).filter (!blankChar ·) = trimBy blank raw := by
    rw [List.filter_eq_self]
    intro c mem
    simp [plain c mem]
  conv_rhs => rw [split]
  rw [List.filter_append,List.filter_append,gone before,gone after,kept]
  simp

/-- If both ways of trimming leave a number, they leave the same text. -/
theorem trim_eq_ecmaTrim {raw : List Char} {w : Int} (first : StringNumber (trim raw) z)
    (second : StringNumber (ecmaTrim raw) w) : trim raw = ecmaTrim raw := by
  have rust : trim raw = trimBy isWhitespace raw := rfl
  rw [rust,trimBy_eq_filter (by intro c space; simp [blankChar,space]) (stringNumber_plain (rust ▸ first)),ecmaTrim,
    trimBy_eq_filter (by intro c space; simp [blankChar,space]) (stringNumber_plain second)]

/-- The reader follows the grammar exactly when both ways of trimming leave the same number or
none, and no digits reach the end of the sixteen limbs in front of a bad character; or when such
digits stand in a text that ECMAScript reads as a number out of range. -/
theorem parseBigintString_iff (raw : List Char) :
    StringToBigInt raw (parseBigintString raw) ↔
      (¬ Premature (trim raw) ∧ ∀ z,StringNumber (trim raw) z ↔ StringNumber (ecmaTrim raw) z) ∨
        (Premature (trim raw) ∧ ∃ z,StringNumber (ecmaTrim raw) z ∧ ¬ InRange z) := by
  by_cases premature : Premature (trim raw)
  · have raised := parse_premature premature
    constructor
    · rintro ⟨syntactic,exact⟩
      obtain ⟨z,number⟩ : ∃ z,StringNumber (ecmaTrim raw) z := by
        by_contra absent
        rw [raised] at syntactic
        cases syntactic.mpr absent
      refine .inr ⟨premature,z,number,fun inside => ?_⟩
      have parsed := exact z number
      rw [Parsed,if_pos inside,raised] at parsed
      obtain ⟨a,wrong,-⟩ := parsed
      cases wrong
    · rintro (⟨timely,-⟩ | ⟨-,z,number,outside⟩)
      · exact absurd premature timely
      · rw [raised]
        refine ⟨⟨fun wrong => (nomatch wrong),fun absent => absurd ⟨z,number⟩ absent⟩,fun w again => ?_⟩
        rw [stringNumber_unique again number,Parsed,if_neg outside]
  · constructor
    · rintro ⟨syntactic,exact⟩
      refine .inl ⟨premature,fun z => ⟨fun number => ?_,fun number => ?_⟩⟩
      · obtain ⟨w,other⟩ : ∃ w,StringNumber (ecmaTrim raw) w := by
          by_contra absent
          exact (parse_number number).ne_none (syntactic.mpr absent)
        rwa [← trim_eq_ecmaTrim number other]
      · obtain ⟨w,other⟩ : ∃ w,StringNumber (trim raw) w := by
          by_contra absent
          exact (exact z number).ne_none (parse_none absent premature)
        rwa [trim_eq_ecmaTrim other number]
    · rintro (⟨-,same⟩ | ⟨early,-⟩)
      · refine ⟨⟨fun none => ?_,fun absent => ?_⟩,fun z number => parse_number ((same z).mpr number)⟩
        · rintro ⟨z,number⟩
          exact (parse_number ((same z).mpr number)).ne_none none
        · exact parse_none (fun ⟨z,number⟩ => absent ⟨z,(same z).mp number⟩) premature
      · exact absurd early premature

/-- A bad character behind too many digits, and a mark that ECMAScript trims. -/
theorem parseBigintString_strays :
    ¬ StringToBigInt (List.replicate 400 '9' ++ ['!']) (parseBigintString (List.replicate 400 '9' ++ ['!'])) ∧
      ¬ StringToBigInt ['\ufeff','5'] (parseBigintString ['\ufeff','5']) := by
  constructor
  · rintro ⟨syntactic,-⟩
    have absent : ¬ ∃ z,StringNumber (ecmaTrim (List.replicate 400 '9' ++ ['!'])) z := by
      rintro ⟨z,number⟩
      have text : ecmaTrim (List.replicate 400 '9' ++ ['!']) = List.replicate 400 '9' ++ ['!'] := by decide +kernel
      have bad : ¬ ∀ c ∈ (parts (List.replicate 400 '9' ++ ['!'])).2.2,
          (toDigit (parts (List.replicate 400 '9' ++ ['!'])).2.1 c).isSome := by
        rw [← List.all_eq_true]
        decide +kernel
      rw [text] at number
      obtain ⟨n,written,-⟩ := (stringNumber_iff (List.append_ne_nil_of_right_ne_nil _ (List.cons_ne_nil _ _))).mp number
      exact bad written.digits
    have raised : parseBigintString (List.replicate 400 '9' ++ ['!']) ≠ .ok none := by decide +kernel
    exact raised (syntactic.mpr absent)
  · rintro ⟨syntactic,-⟩
    have number : StringNumber (ecmaTrim ['\ufeff','5']) 5 := .decimal ⟨by decide,List.all_eq_true.mp (by decide),by decide⟩
    exact syntactic.mp (by decide +kernel) ⟨5,number⟩

end Grammar

end Perry.Runtime.BigInt
