import Mathlib.Tactic

/-! Numbers in decimal notation: padded with zeros as they are printed, and as they are read. -/
namespace Perry.Words

/-- `{:0width$}` of a number. -/
def padded (width n : Nat) : List Char := (Nat.toDigits 10 n).leftpad width '0'

def digitsValue (text : List Char) : Nat := text.foldl (fun n c => 10 * n + (c.toNat - 48)) 0

/-- `str::parse` of an unsigned number. -/
def parseUnsigned (limit : Nat) (text : List Char) : Option Nat :=
  let digits := if text.head? = some '+' then text.tail else text
  if digits ≠ [] ∧ digits.all Char.isDigit ∧ digitsValue digits < limit then some (digitsValue digits) else none

/-- `str::parse::<i64>`. -/
def parseSigned (text : List Char) : Option Int :=
  let digits := if text.head? = some '+' ∨ text.head? = some '-' then text.tail else text
  if digits = [] ∨ ¬digits.all Char.isDigit then none
  else if text.head? = some '-' then if digitsValue digits ≤ 2 ^ 63 then some (-digitsValue digits) else none
  else if digitsValue digits < 2 ^ 63 then some (digitsValue digits) else none

variable {width n : Nat}

theorem isDigit_padded : ∀ c ∈ padded width n,c.isDigit := by
  intro c member
  rw [padded,List.leftpad,List.mem_append] at member
  obtain zero | digit := member
  · rw [List.eq_of_mem_replicate zero]
    rfl
  · exact Nat.isDigit_of_mem_toDigits (by omega) (by omega) digit

theorem padded_ne_nil : padded width n ≠ [] := by
  rw [padded,List.leftpad]
  exact fun empty => Nat.toDigits_ne_nil (List.append_eq_nil_iff.mp empty).2

theorem length_padded (pos : 0 < width) (fits : n < 10 ^ width) : (padded width n).length = width := by
  have short := (Nat.length_toDigits_le_iff (by omega) pos).mpr fits
  rw [padded,List.leftpad,List.length_append,List.length_replicate]
  omega

theorem le_length_padded : width ≤ (padded width n).length := by
  rw [padded,List.leftpad,List.length_append,List.length_replicate]
  omega

theorem lt_length_padded (pos : 0 < width) (large : 10 ^ width ≤ n) : width < (padded width n).length := by
  have long := (Nat.length_toDigits_le_iff (by omega) pos).not.mpr (Nat.not_lt.mpr large)
  rw [padded,List.leftpad,List.length_append]
  omega

theorem digitsValue_concat (text : List Char) (c : Char) : digitsValue (text ++ [c]) = 10 * digitsValue text + (c.toNat - 48) := by
  rw [digitsValue,List.foldl_append]
  rfl

theorem digitsValue_append (front back : List Char) : digitsValue (front ++ back) = digitsValue front * 10 ^ back.length + digitsValue back := by
  induction back using List.reverseRecOn with
  | nil => simp [digitsValue]
  | append_singleton back c ih =>
    rw [← List.append_assoc,digitsValue_concat,digitsValue_concat,ih,List.length_append,List.length_singleton,pow_succ]
    ring

theorem digitsValue_lt {text : List Char} (digits : ∀ c ∈ text,c.isDigit) : digitsValue text < 10 ^ text.length := by
  induction text using List.reverseRecOn with
  | nil => exact Nat.one_pos
  | append_singleton text c ih =>
    have front := ih fun c member => digits c (List.mem_append_left _ member)
    have digit := digits c (List.mem_append_right _ (List.mem_singleton_self c))
    simp only [Char.isDigit,Bool.and_eq_true,decide_eq_true_eq,UInt32.le_iff_toNat_le] at digit
    have upper : c.toNat ≤ 57 := digit.2
    rw [digitsValue_concat,List.length_append,List.length_singleton,pow_succ]
    omega

theorem digitsValue_toDigits (n : Nat) : digitsValue (Nat.toDigits 10 n) = n := by
  induction n using Nat.strong_induction_on with
  | _ n ih =>
    rw [Nat.toDigits_eq_if (by omega)]
    split
    · next small =>
      rw [← List.nil_append [n.digitChar],digitsValue_concat,Nat.toNat_digitChar_sub_48_of_lt_ten small]
      exact Nat.zero_add n
    · rw [digitsValue_concat,ih _ (by omega),Nat.toNat_digitChar_sub_48_of_lt_ten (by omega)]
      omega

@[simp] theorem digitsValue_padded : digitsValue (padded width n) = n := by
  rw [padded,List.leftpad]
  induction width - (Nat.toDigits 10 n).length with
  | zero => exact digitsValue_toDigits n
  | succ k ih => rwa [List.replicate_succ,List.cons_append]

theorem parseUnsigned_digits {limit : Nat} {text : List Char} (some_digit : text ≠ []) (digits : ∀ c ∈ text,c.isDigit) (fits : digitsValue text < limit) :
    parseUnsigned limit text = some (digitsValue text) := by
  have unsigned : text.head? ≠ some '+' := fun plus => absurd (digits '+' (List.mem_of_mem_head? plus)) (by decide)
  rw [parseUnsigned,if_neg unsigned]
  exact if_pos ⟨some_digit,List.all_eq_true.mpr digits,fits⟩

theorem parseSigned_digits {text : List Char} (some_digit : text ≠ []) (digits : ∀ c ∈ text,c.isDigit) (fits : digitsValue text < 2 ^ 63) :
    parseSigned text = some ↑(digitsValue text) := by
  have plus : text.head? ≠ some '+' := fun plus => absurd (digits '+' (List.mem_of_mem_head? plus)) (by decide)
  have minus : text.head? ≠ some '-' := fun minus => absurd (digits '-' (List.mem_of_mem_head? minus)) (by decide)
  rw [parseSigned,if_neg (not_or.mpr ⟨plus,minus⟩),if_neg (not_or.mpr ⟨some_digit,not_not.mpr (List.all_eq_true.mpr digits)⟩),if_neg minus,if_pos fits]

theorem parseSigned_minus {text : List Char} (some_digit : text ≠ []) (digits : ∀ c ∈ text,c.isDigit) (fits : digitsValue text ≤ 2 ^ 63) :
    parseSigned ('-' :: text) = some (-(digitsValue text : Int)) := by
  have negative : ('-' :: text).head? = some '-' := rfl
  have rest : (if ('-' :: text).head? = some '+' ∨ ('-' :: text).head? = some '-' then ('-' :: text).tail else '-' :: text) = text :=
    if_pos (.inr negative)
  rw [parseSigned,rest,if_neg (not_or.mpr ⟨some_digit,not_not.mpr (List.all_eq_true.mpr digits)⟩),if_pos negative,if_pos fits]

end Perry.Words
