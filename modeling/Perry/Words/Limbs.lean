import Mathlib.Data.List.GetD
import Mathlib.Data.Nat.Digits.Lemmas
import Mathlib.Tactic

/-! Little-endian words over a base: the carry chains that add, subtract, complement,
multiply, shorten and compare them, each characterised by the number the words write. -/
namespace Perry.Words
open Nat (ofDigits ofDigits_cons ofDigits_lt_base_pow_length ofDigits_inj_of_len_eq)

variable {B : Nat} {as bs ws : List Nat} {a c d : Nat}

/-- Every word is a digit of the base. -/
def Digits (B : Nat) (ws : List Nat) : Prop := ∀ w ∈ ws,w < B

theorem Digits.nil : Digits B [] := by simp [Digits]

@[simp] theorem digits_cons : Digits B (a :: ws) ↔ a < B ∧ Digits B ws := by simp [Digits]

theorem Digits.value_lt (digits : Digits B ws) (base : 1 < B) :
    ofDigits B ws < B ^ ws.length := ofDigits_lt_base_pow_length base digits

theorem Digits.take (digits : Digits B ws) (n : Nat) : Digits B (ws.take n) :=
  fun w mem => digits w (List.mem_of_mem_take mem)

theorem Digits.append (left : Digits B as) (right : Digits B bs) : Digits B (as ++ bs) := by
  intro w mem
  rcases List.mem_append.mp mem with mem | mem
  · exact left w mem
  · exact right w mem

theorem Digits.replicate (n : Nat) (small : a < B) : Digits B (List.replicate n a) := by
  intro w mem
  rw [List.eq_of_mem_replicate mem]
  exact small

theorem value_eq_zero (base : 0 < B) : ofDigits B ws = 0 ↔ ∀ w ∈ ws,w = 0 := by
  induction ws with
  | nil => simp
  | cons w ws ih => simp [ofDigits_cons,ih,base.ne']

theorem value_inj (base : 1 < B) (same : as.length = bs.length) (left : Digits B as)
    (right : Digits B bs) : ofDigits B as = ofDigits B bs ↔ as = bs := by
  constructor
  · exact ofDigits_inj_of_len_eq base same left right
  · rintro rfl
    rfl

/-- Words above the last nonzero one do not count. -/
theorem value_take {n : Nat} (above : ∀ i,n ≤ i → ws.getD i 0 = 0) :
    ofDigits B (ws.take n) = ofDigits B ws := by
  induction ws generalizing n with
  | nil => simp
  | cons w ws ih =>
    cases n with
    | zero =>
      have first := above 0 (Nat.le_refl 0)
      have rest := @ih 0 fun i _ => by simpa using above (i + 1) (Nat.zero_le _)
      simp only [List.take_zero,Nat.ofDigits_nil,List.getD_cons_zero] at first rest
      rw [ofDigits_cons,first,← rest]
      simp
    | succ n =>
      have rest := @ih n fun i le => by simpa using above (i + 1) (by omega)
      rw [List.take_succ_cons,ofDigits_cons,ofDigits_cons,rest]

theorem value_digit (base : 0 < B) (digits : Digits B ws) (n : Nat) :
    ofDigits B ws / B ^ n % B = ws.getD n 0 := by
  rw [Nat.ofDigits_div_pow_eq_ofDigits_drop n base ws digits]
  by_cases inside : n < ws.length
  · rw [List.drop_eq_getElem_cons inside,ofDigits_cons,Nat.add_mul_mod_self_left,
      List.getD_eq_getElem _ _ inside,Nat.mod_eq_of_lt (digits _ (List.getElem_mem inside))]
  · rw [List.drop_eq_nil_of_le (by omega),List.getD_eq_default _ _ (by omega)]
    exact Nat.zero_mod B

theorem value_div_top (base : 0 < B) (digits : Digits B ws) {n : Nat} (size : ws.length = n + 1) :
    ofDigits B ws / B ^ n = ws.getD n 0 := by
  have last : n < ws.length := by omega
  have above : ws.drop (n + 1) = [] := List.drop_eq_nil_of_le (by omega)
  rw [Nat.ofDigits_div_pow_eq_ofDigits_drop n base ws digits,List.drop_eq_getElem_cons last,above,
    List.getD_eq_getElem _ _ last,Nat.ofDigits_singleton]

theorem value_replicate_top (base : 0 < B) (n : Nat) :
    ofDigits B (List.replicate n (B - 1)) + 1 = B ^ n := by
  induction n with
  | zero => simp
  | succ n ih =>
    have top : B - 1 + 1 = B := Nat.succ_pred_eq_of_pos base
    rw [List.replicate_succ,ofDigits_cons,pow_succ]
    linear_combination B * ih + top

section Chains

/-- Add with carry, and the carry out of the last word. -/
def addCarry (B : Nat) : List Nat → List Nat → Nat → List Nat × Nat
  | a :: as,b :: bs,carry =>
    let sum := a + b + carry
    let rest := addCarry B as bs (sum / B)
    (sum % B :: rest.1,rest.2)
  | _,_,carry => ([],carry)

theorem addCarry_length (same : as.length = bs.length) :
    (addCarry B as bs c).1.length = as.length := by
  induction as generalizing bs c with
  | nil => rfl
  | cons a as ih =>
    obtain _ | ⟨b,bs⟩ := bs
    · cases same
    · simp [addCarry,ih (Nat.succ.inj same)]

theorem addCarry_digits (base : 0 < B) : Digits B (addCarry B as bs c).1 := by
  induction as generalizing bs c with
  | nil => exact .nil
  | cons a as ih =>
    obtain _ | ⟨b,bs⟩ := bs
    · exact .nil
    · exact digits_cons.mpr ⟨Nat.mod_lt _ base,ih⟩

theorem addCarry_value (same : as.length = bs.length) :
    ofDigits B (addCarry B as bs c).1 + B ^ as.length * (addCarry B as bs c).2 =
      ofDigits B as + ofDigits B bs + c := by
  induction as generalizing bs c with
  | nil =>
    obtain rfl := List.length_eq_zero_iff.mp same.symm
    simp [addCarry]
  | cons a as ih =>
    obtain _ | ⟨b,bs⟩ := bs
    · cases same
    · have rest := @ih bs ((a + b + c) / B) (Nat.succ.inj same)
      have split := Nat.mod_add_div (a + b + c) B
      simp only [addCarry,ofDigits_cons,List.length_cons,pow_succ]
      linear_combination B * rest + split

/-- Subtract with borrow, and the borrow out of the last word. -/
def subBorrow (B : Nat) : List Nat → List Nat → Nat → List Nat × Nat
  | a :: as,b :: bs,borrow =>
    let diff : Int := a - b - borrow
    if diff < 0 then
      let rest := subBorrow B as bs 1
      ((diff + B).toNat :: rest.1,rest.2)
    else
      let rest := subBorrow B as bs 0
      (diff.toNat :: rest.1,rest.2)
  | _,_,borrow => ([],borrow)

theorem subBorrow_length (same : as.length = bs.length) :
    (subBorrow B as bs c).1.length = as.length := by
  induction as generalizing bs c with
  | nil => rfl
  | cons a as ih =>
    obtain _ | ⟨b,bs⟩ := bs
    · cases same
    · rw [subBorrow]
      split <;> simp [ih (Nat.succ.inj same)]

theorem subBorrow_digits (left : Digits B as) (right : Digits B bs) (borrow : c ≤ 1) :
    Digits B (subBorrow B as bs c).1 := by
  induction as generalizing bs c with
  | nil => exact .nil
  | cons a as ih =>
    obtain _ | ⟨b,bs⟩ := bs
    · exact .nil
    · rw [digits_cons] at left right
      rw [subBorrow]
      split
      · exact digits_cons.mpr ⟨by omega,ih left.2 right.2 (by omega)⟩
      · exact digits_cons.mpr ⟨by omega,ih left.2 right.2 (by omega)⟩

theorem subBorrow_value (same : as.length = bs.length) (right : Digits B bs) (borrow : c ≤ 1) :
    ofDigits B (subBorrow B as bs c).1 + ofDigits B bs + c =
      ofDigits B as + B ^ as.length * (subBorrow B as bs c).2 := by
  induction as generalizing bs c with
  | nil =>
    obtain rfl := List.length_eq_zero_iff.mp same.symm
    simp [subBorrow]
  | cons a as ih =>
    obtain _ | ⟨b,bs⟩ := bs
    · cases same
    · rw [digits_cons] at right
      rw [subBorrow]
      split
      · have rest := @ih bs 1 (Nat.succ.inj same) right.2 (by omega)
        have word : ((a - b - c : Int) + B).toNat + b + c = a + B := by omega
        simp only [ofDigits_cons,List.length_cons,pow_succ]
        linear_combination B * rest + word
      · have rest := @ih bs 0 (Nat.succ.inj same) right.2 (by omega)
        have word : (a - b - c : Int).toNat + b + c = a := by omega
        simp only [ofDigits_cons,List.length_cons,pow_succ]
        linear_combination B * rest + word

theorem subBorrow_sub (base : 1 < B) (same : as.length = bs.length) (left : Digits B as)
    (right : Digits B bs) (le : ofDigits B bs ≤ ofDigits B as) :
    ofDigits B (subBorrow B as bs 0).1 = ofDigits B as - ofDigits B bs := by
  have value := subBorrow_value same right (Nat.zero_le 1)
  have below := (subBorrow_digits left right (Nat.zero_le 1)).value_lt base
  rw [subBorrow_length same] at below
  obtain settled | borrowed := Nat.eq_zero_or_pos (subBorrow B as bs 0).2
  · rw [settled] at value
    omega
  · have wrapped := Nat.mul_le_mul_left (B ^ as.length) borrowed
    omega

/-- Flip every word and add the carry. -/
def complement (B : Nat) : List Nat → Nat → List Nat
  | w :: ws,carry =>
    let sum := (B - 1 - w) + carry
    sum % B :: complement B ws (sum / B)
  | [],_ => []

@[simp] theorem complement_length : (complement B ws c).length = ws.length := by
  induction ws generalizing c with
  | nil => rfl
  | cons w ws ih => simp [complement,ih]

theorem complement_digits (base : 0 < B) : Digits B (complement B ws c) := by
  induction ws generalizing c with
  | nil => exact .nil
  | cons w ws ih => exact digits_cons.mpr ⟨Nat.mod_lt _ base,ih⟩

theorem complement_value (base : 1 < B) (digits : Digits B ws) :
    ofDigits B (complement B ws c) = (B ^ ws.length - 1 - ofDigits B ws + c) % B ^ ws.length := by
  induction ws generalizing c with
  | nil => simp [complement,Nat.mod_one]
  | cons w ws ih =>
    rw [digits_cons] at digits
    have bound := Digits.value_lt digits.2 base
    have whole : B ^ (ws.length + 1) - 1 - (w + B * ofDigits B ws) + c =
        (B - 1 - w + c) + B * (B ^ ws.length - 1 - ofDigits B ws) := by
      obtain ⟨k,room⟩ := Nat.exists_eq_add_of_lt bound
      obtain ⟨l,digit⟩ := Nat.exists_eq_add_of_lt digits.1
      rw [pow_succ,room]
      have spread : (ofDigits B ws + k + 1) * B = w + B * ofDigits B ws + 1 + (l + B * k) := by
        linear_combination digit
      rw [spread]
      have below : ofDigits B ws + k + 1 - 1 - ofDigits B ws = k := by omega
      rw [below]
      omega
    rw [complement,ofDigits_cons,ofDigits_cons,ih digits.2,List.length_cons,whole,pow_succ',
      Nat.mod_mul,Nat.add_mul_mod_self_left,Nat.add_mul_div_left _ _ (by omega),
      Nat.add_comm (B ^ ws.length - 1 - ofDigits B ws)]

end Chains

section Products

/-- Add a carry into the words until it is used up. -/
def propagate (B : Nat) : List Nat → Nat → List Nat
  | w :: ws,carry =>
    if carry = 0 then w :: ws
    else (w + carry) % B :: propagate B ws ((w + carry) / B)
  | [],_ => []

/-- One row of a schoolbook product: `factor` times the words, added into `ws`. -/
def mulRow (B factor : Nat) : List Nat → List Nat → Nat → List Nat
  | b :: bs,w :: ws,carry =>
    let product := factor * b + w + carry
    product % B :: mulRow B factor bs ws (product / B)
  | [],ws,carry => propagate B ws carry
  | _ :: _,[],_ => []

/-- The rows of a schoolbook product, each one word further along `ws`. -/
def mulRows (B : Nat) : List Nat → List Nat → List Nat → List Nat
  | a :: as,bs,ws =>
    match mulRow B a bs ws 0 with
    | w :: rest => w :: mulRows B as bs rest
    | [] => []
  | [],_,ws => ws

@[simp] theorem propagate_length : (propagate B ws c).length = ws.length := by
  induction ws generalizing c with
  | nil => rfl
  | cons w ws ih =>
    rw [propagate]
    split <;> simp [ih]

theorem propagate_digits (base : 0 < B) (digits : Digits B ws) : Digits B (propagate B ws c) := by
  induction ws generalizing c with
  | nil => exact .nil
  | cons w ws ih =>
    rw [propagate]
    split
    · exact digits
    · exact digits_cons.mpr ⟨Nat.mod_lt _ base,ih (digits_cons.mp digits).2⟩

theorem propagate_value (base : 1 < B) (digits : Digits B ws) :
    ofDigits B (propagate B ws c) = (ofDigits B ws + c) % B ^ ws.length := by
  induction ws generalizing c with
  | nil => simp [propagate,Nat.mod_one]
  | cons w ws ih =>
    rw [propagate]
    split
    · rename_i spent
      rw [spent,Nat.add_zero,Nat.mod_eq_of_lt (Digits.value_lt digits base)]
    · have whole : w + B * ofDigits B ws + c = (w + c) + B * ofDigits B ws := by ring
      rw [ofDigits_cons,ofDigits_cons,ih (digits_cons.mp digits).2,List.length_cons,whole,pow_succ',
        Nat.mod_mul,Nat.add_mul_mod_self_left,Nat.add_mul_div_left _ _ (by omega),
        Nat.add_comm (ofDigits B ws)]

@[simp] theorem mulRow_length : (mulRow B a bs ws c).length = ws.length := by
  induction bs generalizing ws c with
  | nil => simp [mulRow]
  | cons b bs ih =>
    obtain _ | ⟨w,ws⟩ := ws
    · rfl
    · simp [mulRow,ih]

theorem mulRow_digits (base : 0 < B) (digits : Digits B ws) : Digits B (mulRow B a bs ws c) := by
  induction bs generalizing ws c with
  | nil => exact propagate_digits base digits
  | cons b bs ih =>
    obtain _ | ⟨w,ws⟩ := ws
    · exact .nil
    · exact digits_cons.mpr ⟨Nat.mod_lt _ base,ih (digits_cons.mp digits).2⟩

theorem mulRow_value (base : 1 < B) (digits : Digits B ws) (room : bs.length ≤ ws.length) :
    ofDigits B (mulRow B a bs ws c) = (a * ofDigits B bs + ofDigits B ws + c) % B ^ ws.length := by
  induction bs generalizing ws c with
  | nil => simpa [mulRow] using propagate_value base digits
  | cons b bs ih =>
    obtain _ | ⟨w,ws⟩ := ws
    · simp at room
    · have whole : a * (b + B * ofDigits B bs) + (w + B * ofDigits B ws) + c =
          (a * b + w + c) + B * (a * ofDigits B bs + ofDigits B ws) := by ring
      rw [mulRow,ofDigits_cons,ofDigits_cons,ofDigits_cons,
        ih (digits_cons.mp digits).2 (Nat.le_of_succ_le_succ room),List.length_cons,whole,pow_succ',
        Nat.mod_mul,Nat.add_mul_mod_self_left,Nat.add_mul_div_left _ _ (by omega),
        Nat.add_comm ((a * b + w + c) / B)]

@[simp] theorem mulRows_length : (mulRows B as bs ws).length = ws.length := by
  induction as generalizing ws with
  | nil => rfl
  | cons a as ih =>
    have size : (mulRow B a bs ws 0).length = ws.length := mulRow_length
    rw [mulRows]
    split
    · rename_i row
      rw [row] at size
      simpa [ih] using size
    · rename_i row
      rw [row] at size
      exact size

theorem mulRows_digits (base : 0 < B) (digits : Digits B ws) : Digits B (mulRows B as bs ws) := by
  induction as generalizing ws with
  | nil => exact digits
  | cons a as ih =>
    have row : Digits B (mulRow B a bs ws 0) := mulRow_digits base digits
    rw [mulRows]
    split
    · rename_i written
      rw [written,digits_cons] at row
      exact digits_cons.mpr ⟨row.1,ih row.2⟩
    · exact .nil

theorem mulRows_value (base : 1 < B) (digits : Digits B ws)
    (room : as.length + bs.length ≤ ws.length) :
    ofDigits B (mulRows B as bs ws) =
      (ofDigits B as * ofDigits B bs + ofDigits B ws) % B ^ ws.length := by
  induction as generalizing ws with
  | nil => simpa [mulRows] using (Nat.mod_eq_of_lt (Digits.value_lt digits base)).symm
  | cons a as ih =>
    have row : Digits B (mulRow B a bs ws 0) := mulRow_digits (Nat.zero_lt_of_lt base) digits
    have value := mulRow_value (a := a) (c := 0) base digits
      (Nat.le_trans (Nat.le_add_left bs.length (a :: as).length) room)
    have size : (mulRow B a bs ws 0).length = ws.length := mulRow_length
    rw [mulRows]
    split
    · rename_i w rest written
      rw [written,digits_cons] at row
      rw [written,ofDigits_cons] at value
      rw [written,List.length_cons] at size
      have fits : as.length + bs.length ≤ rest.length := by
        rw [List.length_cons] at room
        omega
      -- the row is right modulo the whole width, and the later rows lie one word above it
      have whole : (ofDigits B (a :: as) * ofDigits B bs + ofDigits B ws) % B ^ ws.length =
          (w + B * (ofDigits B as * ofDigits B bs + ofDigits B rest)) % B ^ ws.length := by
        have spread : ofDigits B (a :: as) * ofDigits B bs + ofDigits B ws =
            (a * ofDigits B bs + ofDigits B ws + 0) + B * (ofDigits B as * ofDigits B bs) := by
          rw [ofDigits_cons]
          ring
        have gather : w + B * (ofDigits B as * ofDigits B bs + ofDigits B rest) =
            (w + B * ofDigits B rest) + B * (ofDigits B as * ofDigits B bs) := by ring
        rw [spread,gather,value,Nat.mod_add_mod]
      rw [ofDigits_cons,ih row.2 fits,whole,← size,pow_succ',Nat.mod_mul,
        Nat.add_mul_mod_self_left,Nat.mod_eq_of_lt row.1,Nat.add_mul_div_left _ _ (by omega),
        Nat.div_eq_of_lt row.1,Nat.zero_add]
    · rename_i written
      rw [written] at size
      rw [← size,List.length_cons] at room
      simp at room

/-- Multiply every word by `factor`, adding a carry, and the carry out of the last word. -/
def mulAdd (B factor : Nat) : List Nat → Nat → List Nat × Nat
  | w :: ws,carry =>
    let product := w * factor + carry
    let rest := mulAdd B factor ws (product / B)
    (product % B :: rest.1,rest.2)
  | [],carry => ([],carry)

@[simp] theorem mulAdd_length : (mulAdd B a ws c).1.length = ws.length := by
  induction ws generalizing c with
  | nil => rfl
  | cons w ws ih => simp [mulAdd,ih]

theorem mulAdd_digits (base : 0 < B) : Digits B (mulAdd B a ws c).1 := by
  induction ws generalizing c with
  | nil => exact .nil
  | cons w ws ih => exact digits_cons.mpr ⟨Nat.mod_lt _ base,ih⟩

theorem mulAdd_value :
    ofDigits B (mulAdd B a ws c).1 + B ^ ws.length * (mulAdd B a ws c).2 =
      ofDigits B ws * a + c := by
  induction ws generalizing c with
  | nil => simp [mulAdd]
  | cons w ws ih =>
    have rest := @ih ((w * a + c) / B)
    have split := Nat.mod_add_div (w * a + c) B
    simp only [mulAdd,ofDigits_cons,List.length_cons,pow_succ]
    linear_combination B * rest + split

end Products

section Quotients

/-- Short division from the highest word down: the quotient's words and the remainder. -/
def divSmall (B divisor : Nat) : List Nat → List Nat × Nat
  | w :: ws =>
    let rest := divSmall B divisor ws
    let current := rest.2 * B + w
    (current / divisor :: rest.1,current % divisor)
  | [] => ([],0)

@[simp] theorem divSmall_length : (divSmall B d ws).1.length = ws.length := by
  induction ws with
  | nil => rfl
  | cons w ws ih => simp [divSmall,ih]

theorem divSmall_rem_lt (divisor : 0 < d) : (divSmall B d ws).2 < d := by
  cases ws with
  | nil => exact divisor
  | cons w ws => exact Nat.mod_lt _ divisor

theorem divSmall_value :
    d * ofDigits B (divSmall B d ws).1 + (divSmall B d ws).2 = ofDigits B ws := by
  induction ws with
  | nil => simp [divSmall]
  | cons w ws ih =>
    have split := Nat.div_add_mod ((divSmall B d ws).2 * B + w) d
    simp only [divSmall,ofDigits_cons]
    linear_combination B * ih + split

theorem divSmall_digits (divisor : 0 < d) (digits : Digits B ws) :
    Digits B (divSmall B d ws).1 := by
  induction ws with
  | nil => exact .nil
  | cons w ws ih =>
    rw [digits_cons] at digits
    refine digits_cons.mpr ⟨?_,ih digits.2⟩
    have below : (divSmall B d ws).2 + 1 ≤ d := divSmall_rem_lt divisor
    have scaled := Nat.mul_le_mul_right B below
    exact (Nat.div_lt_iff_lt_mul divisor).mpr (by linarith [digits.1])

theorem divSmall_quotient (divisor : 0 < d) :
    ofDigits B (divSmall B d ws).1 = ofDigits B ws / d := by
  have value := @divSmall_value B ws d
  rw [← value,Nat.mul_add_div divisor,Nat.div_eq_of_lt (divSmall_rem_lt divisor),Nat.add_zero]

theorem divSmall_remainder (divisor : 0 < d) : (divSmall B d ws).2 = ofDigits B ws % d := by
  have value := @divSmall_value B ws d
  rw [← value,Nat.mul_add_mod,Nat.mod_eq_of_lt (divSmall_rem_lt divisor)]

/-- Compare from the highest word down; the first difference decides. -/
def compareHigh : List Nat → List Nat → Ordering
  | a :: as,b :: bs => (compareHigh as bs).then (compare a b)
  | _,_ => .eq

theorem compareHigh_value (same : as.length = bs.length) (left : Digits B as)
    (right : Digits B bs) : compareHigh as bs = compare (ofDigits B as) (ofDigits B bs) := by
  induction as generalizing bs with
  | nil =>
    obtain rfl := List.length_eq_zero_iff.mp same.symm
    simp [compareHigh]
  | cons a as ih =>
    obtain _ | ⟨b,bs⟩ := bs
    · cases same
    · rw [digits_cons] at left right
      rw [compareHigh,ih (Nat.succ.inj same) left.2 right.2,ofDigits_cons,ofDigits_cons]
      rcases Nat.lt_trichotomy (ofDigits B as) (ofDigits B bs) with lt | eq | gt
      · have scaled := Nat.mul_le_mul_left B lt
        have below : a + B * ofDigits B as < b + B * ofDigits B bs := by
          rw [Nat.mul_succ] at scaled
          omega
        rw [Nat.compare_eq_lt.mpr lt,Nat.compare_eq_lt.mpr below]
        rfl
      · rw [eq]
        rcases Nat.lt_trichotomy a b with lt | rfl | gt
        · simp [Nat.compare_eq_lt.mpr lt,Nat.compare_eq_lt.mpr (Nat.add_lt_add_right lt _)]
        · simp
        · simp [Nat.compare_eq_gt.mpr gt,Nat.compare_eq_gt.mpr (Nat.add_lt_add_right gt _)]
      · have scaled := Nat.mul_le_mul_left B gt
        have above : b + B * ofDigits B bs < a + B * ofDigits B as := by
          rw [Nat.mul_succ] at scaled
          omega
        rw [Nat.compare_eq_gt.mpr gt,Nat.compare_eq_gt.mpr above]
        rfl

end Quotients

section Signed

variable {half x y : Nat}

/-- The two's complement reading of a number below twice `half`. -/
def signed (half n : Nat) : Int := if n < half then n else n - 2 * half

theorem signed_bounds (below : x < 2 * half) : -(half : Int) ≤ signed half x ∧ signed half x < half := by
  unfold signed
  split <;> omega

theorem signed_inj (left : x < 2 * half) (right : y < 2 * half)
    (same : signed half x = signed half y) : x = y := by
  unfold signed at same
  split at same <;> split at same <;> omega

theorem signed_neg_iff (below : x < 2 * half) : signed half x < 0 ↔ half ≤ x := by
  unfold signed
  split <;> omega

/-- A number below four times `half`, brought below twice `half`. -/
theorem mod_two_half (bound : x < 4 * half) :
    x % (2 * half) = if x < 2 * half then x else x - 2 * half := by
  split
  · exact Nat.mod_eq_of_lt (by omega)
  · rw [Nat.mod_eq_sub_mod (by omega),Nat.mod_eq_of_lt (by omega)]

end Signed
end Perry.Words
