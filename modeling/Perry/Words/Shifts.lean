import Perry.Words.Bits

/-! Shifts of a whole row of words: up into a wider row, and down with the emptied places
filled by copies of the sign. -/
namespace Perry.Words
open Nat (ofDigits)

variable {k n size : Nat} {ws : List Nat}

section left

/-- Shift the words up by `n` bits into a row of `size` words. -/
def shiftLeft (k : Nat) (ws : List Nat) (n size : Nat) : List Nat :=
  (List.range size).map fun i =>
    let lo := if n / k ≤ i then ws.getD (i - n / k) 0 else 0
    let below := if n / k + 1 ≤ i then ws.getD (i - (n / k + 1)) 0 else 0
    if n % k = 0 then lo
    else (lo <<< (n % k)) % 2 ^ k ||| below >>> (k - n % k)

@[simp] theorem shiftLeft_length : (shiftLeft k ws n size).length = size := by simp [shiftLeft]

theorem shiftLeft_digits (digits : Digits (2 ^ k) ws) : Digits (2 ^ k) (shiftLeft k ws n size) := by
  have word (p : Prop) [Decidable p] (i : Nat) : (if p then ws.getD i 0 else 0) < 2 ^ k := by
    split
    · exact digits.getD _
    · exact Nat.two_pow_pos k
  intro w mem
  obtain ⟨i,-,rfl⟩ := List.mem_map.mp mem
  dsimp only
  split
  · exact word ..
  · apply Nat.or_lt_two_pow
    · exact Nat.mod_lt _ (Nat.two_pow_pos k)
    · exact Nat.lt_of_le_of_lt (Nat.shiftRight_le _ _) (word ..)

/-- Where bit `j - n` of the row stands, in words of `k` bits. -/
theorem sub_place (width : 0 < k) {j : Nat} :
    (n % k ≤ j % k → n / k ≤ j / k → n ≤ j ∧ (j - n) / k = j / k - n / k ∧ (j - n) % k = j % k - n % k) ∧
    (j % k < n % k → n / k + 1 ≤ j / k →
      n ≤ j ∧ (j - n) / k = j / k - (n / k + 1) ∧ (j - n) % k = j % k + (k - n % k)) := by
  have low := Nat.div_add_mod j k
  have cut := Nat.div_add_mod n k
  have bit := Nat.mod_lt j width
  have edge := Nat.mod_lt n width
  constructor
  · intro ready room
    have scaled := Nat.mul_le_mul_left k room
    have place : j % k - n % k + k * (j / k - n / k) = j - n := by
      rw [Nat.mul_sub]
      omega
    exact ⟨by omega,(Nat.div_mod_unique width).mpr ⟨place,by omega⟩⟩
  · intro borrow room
    have scaled := Nat.mul_le_mul_left k room
    rw [Nat.mul_add,Nat.mul_one] at scaled
    have place : j % k + (k - n % k) + k * (j / k - (n / k + 1)) = j - n := by
      rw [Nat.mul_sub,Nat.mul_add,Nat.mul_one]
      omega
    exact ⟨by omega,(Nat.div_mod_unique width).mpr ⟨place,by omega⟩⟩

theorem lt_of_place (width : 0 < k) {j : Nat} (before : j / k < n / k ∨ j / k = n / k ∧ j % k < n % k) : j < n := by
  have low := Nat.div_add_mod j k
  have cut := Nat.div_add_mod n k
  obtain lower | ⟨same,less⟩ := before
  · have bit := Nat.mod_lt j width
    have scaled := Nat.mul_le_mul_left k lower
    rw [Nat.mul_succ] at scaled
    omega
  · rw [same] at low
    omega

theorem shiftLeft_value (width : 0 < k) (digits : Digits (2 ^ k) ws) :
    ofDigits (2 ^ k) (shiftLeft k ws n size) = ofDigits (2 ^ k) ws * 2 ^ n % 2 ^ (k * size) := by
  apply Nat.eq_of_testBit_eq
  intro j
  rw [testBit_value width (shiftLeft_digits digits),Nat.testBit_mod_two_pow,Nat.testBit_mul_two_pow,
    testBit_value width digits]
  have bit := Nat.mod_lt j width
  have edge := Nat.mod_lt n width
  obtain ⟨ready,borrow⟩ := sub_place (n := n) width (j := j)
  have bounds : j / k < size ↔ j < k * size := by rw [Nat.div_lt_iff_lt_mul width,Nat.mul_comm]
  by_cases inside : j / k < size
  · have word : (shiftLeft k ws n size).getD (j / k) 0 =
        if n % k = 0 then if n / k ≤ j / k then ws.getD (j / k - n / k) 0 else 0
        else ((if n / k ≤ j / k then ws.getD (j / k - n / k) 0 else 0) <<< (n % k)) % 2 ^ k |||
          (if n / k + 1 ≤ j / k then ws.getD (j / k - (n / k + 1)) 0 else 0) >>> (k - n % k) := by
      simp [shiftLeft,List.getD_eq_getElem?_getD,inside]
    rw [word,decide_eq_true (bounds.mp inside),Bool.true_and]
    by_cases carried : n % k ≤ j % k
    · have above (i : Nat) : (ws[i]?.getD 0).testBit (k - n % k + j % k) = false := by
        rw [← List.getD_eq_getElem?_getD]
        exact Nat.testBit_lt_two_pow (Nat.lt_of_lt_of_le (digits.getD _)
          (Nat.pow_le_pow_right (by omega) (by omega)))
      by_cases room : n / k ≤ j / k
      · obtain ⟨reached,quotient,remainder⟩ := ready carried room
        rw [quotient,remainder,decide_eq_true reached,Bool.true_and,if_pos room]
        split
        · rename_i whole
          rw [whole,Nat.sub_zero]
        · split <;> simp [bit,carried,above]
      · have short := lt_of_place (n := n) width (j := j) (.inl (by omega))
        simp [room,show ¬ n / k + 1 ≤ j / k by omega,Nat.not_le_of_lt short]
    · have some : n % k ≠ 0 := by omega
      rw [if_neg some]
      by_cases room : n / k + 1 ≤ j / k
      · obtain ⟨reached,quotient,remainder⟩ := borrow (by omega) room
        rw [quotient,remainder,decide_eq_true reached]
        simp [room,carried,Nat.add_comm]
      · have short := lt_of_place (n := n) width (j := j) (by omega)
        simp [room,carried,Nat.not_le_of_lt short]
  · rw [List.getD_eq_default _ _ (by simpa using inside)]
    simp [← bounds,inside]

end left

section right

/-- Shift the words down by `n` bits. What lies above the row is `fill`. -/
def shiftRightFill (k : Nat) (ws : List Nat) (fill n : Nat) : List Nat :=
  (List.range ws.length).map fun i =>
    if i + n / k < ws.length then
      let lo := ws.getD (i + n / k) fill
      if n % k = 0 then lo
      else lo >>> (n % k) ||| (ws.getD (i + n / k + 1) fill <<< (k - n % k)) % 2 ^ k
    else fill

@[simp] theorem shiftRightFill_length (fill : Nat) : (shiftRightFill k ws fill n).length = ws.length := by
  simp [shiftRightFill]

theorem Digits.getD_fill {fill : Nat} (digits : Digits (2 ^ k) ws) (small : fill < 2 ^ k) (i : Nat) :
    ws.getD i fill < 2 ^ k := by
  by_cases inside : i < ws.length
  · rw [List.getD_eq_getElem _ _ inside]
    exact digits _ (List.getElem_mem inside)
  · rwa [List.getD_eq_default _ _ (by omega)]

theorem shiftRightFill_digits {fill : Nat} (digits : Digits (2 ^ k) ws) (small : fill < 2 ^ k) :
    Digits (2 ^ k) (shiftRightFill k ws fill n) := by
  intro w mem
  obtain ⟨i,-,rfl⟩ := List.mem_map.mp mem
  dsimp only
  split
  · split
    · exact digits.getD_fill small _
    · apply Nat.or_lt_two_pow
      · exact Nat.lt_of_le_of_lt (Nat.shiftRight_le _ _) (digits.getD_fill small _)
      · exact Nat.mod_lt _ (Nat.two_pow_pos k)
  · exact small

/-- Where bit `j + n` of the row stands. -/
theorem add_place (width : 0 < k) {j : Nat} :
    (n % k + j % k < k → (j + n) / k = j / k + n / k ∧ (j + n) % k = j % k + n % k) ∧
    (k ≤ n % k + j % k → (j + n) / k = j / k + n / k + 1 ∧ (j + n) % k = j % k - (k - n % k)) := by
  have bit := Nat.mod_lt j width
  have edge := Nat.mod_lt n width
  constructor
  · intro fits
    rw [Nat.add_div width,Nat.add_mod,if_neg (by omega),Nat.mod_eq_of_lt (by omega)]
    exact ⟨rfl,rfl⟩
  · intro carry
    rw [Nat.add_div width,Nat.add_mod,if_pos (by omega),Nat.mod_eq_sub_mod (by omega),Nat.mod_eq_of_lt (by omega)]
    exact ⟨rfl,by omega⟩

theorem shiftRightFill_testBit {fill j : Nat} (sign : Bool) (width : 0 < k) (digits : Digits (2 ^ k) ws)
    (small : fill < 2 ^ k) (copies : ∀ i < k, fill.testBit i = sign) (inside : j / k < ws.length) :
    ((shiftRightFill k ws fill n).getD (j / k) 0).testBit (j % k) =
      (ws.getD ((j + n) / k) fill).testBit ((j + n) % k) := by
  have bit := Nat.mod_lt j width
  have edge := Nat.mod_lt n width
  obtain ⟨fits,carry⟩ := add_place (n := n) width (j := j)
  have word : (shiftRightFill k ws fill n).getD (j / k) 0 =
      if j / k + n / k < ws.length then
        if n % k = 0 then ws.getD (j / k + n / k) fill
        else ws.getD (j / k + n / k) fill >>> (n % k) |||
          (ws.getD (j / k + n / k + 1) fill <<< (k - n % k)) % 2 ^ k
      else fill := by
    simp [shiftRightFill,List.getD_eq_getElem?_getD,inside]
  rw [word]
  by_cases within : j / k + n / k < ws.length
  · rw [if_pos within]
    by_cases carried : n % k + j % k < k
    · obtain ⟨quotient,remainder⟩ := fits carried
      rw [quotient,remainder]
      split
      · rename_i whole
        rw [whole,Nat.add_zero]
      · have short : ¬ k - n % k ≤ j % k := by omega
        simp [short,Nat.add_comm]
    · obtain ⟨quotient,remainder⟩ := carry (by omega)
      have above : (ws.getD (j / k + n / k) fill).testBit (n % k + j % k) = false :=
        Nat.testBit_lt_two_pow (Nat.lt_of_lt_of_le (digits.getD_fill small _)
          (Nat.pow_le_pow_right (by omega) (by omega)))
      have reach : k - n % k ≤ j % k := by omega
      rw [quotient,remainder,if_neg (by omega),Nat.testBit_or,Nat.testBit_shiftRight,above]
      simp [reach,bit]
  · have far : ws.length ≤ (j + n) / k := by
      obtain carried | carried := Nat.lt_or_ge (n % k + j % k) k
      · rw [(fits carried).1]
        omega
      · rw [(carry carried).1]
        omega
    rw [if_neg within,List.getD_eq_default _ _ far,copies _ bit,copies _ (Nat.mod_lt _ width)]

theorem shiftRightFill_zero (width : 0 < k) (digits : Digits (2 ^ k) ws) :
    ofDigits (2 ^ k) (shiftRightFill k ws 0 n) = ofDigits (2 ^ k) ws / 2 ^ n := by
  have small : 0 < 2 ^ k := Nat.two_pow_pos k
  apply Nat.eq_of_testBit_eq
  intro j
  rw [testBit_value width (shiftRightFill_digits digits small),Nat.testBit_div_two_pow,testBit_value width digits]
  by_cases inside : j / k < ws.length
  · exact shiftRightFill_testBit false width digits small (fun i _ => Nat.zero_testBit i) inside
  · have far : ws.length ≤ (j + n) / k :=
      Nat.le_trans (Nat.le_of_not_lt inside) (Nat.div_le_div_right (by omega))
    rw [List.getD_eq_default _ _ (by simpa using inside),List.getD_eq_default _ _ far,Nat.zero_testBit,
      Nat.zero_testBit]

/-- Copies of a set sign fill the highest `n` bits. -/
theorem shiftRightFill_ones (width : 0 < k) (digits : Digits (2 ^ k) ws) (within : n ≤ k * ws.length) :
    ofDigits (2 ^ k) (shiftRightFill k ws (2 ^ k - 1) n) =
      2 ^ (k * ws.length - n) * (2 ^ n - 1) + ofDigits (2 ^ k) ws / 2 ^ n := by
  have small : 2 ^ k - 1 < 2 ^ k := Nat.sub_one_lt (Nat.two_pow_pos k).ne'
  have low : ofDigits (2 ^ k) ws / 2 ^ n < 2 ^ (k * ws.length - n) := by
    have bound := digits.value_lt (Nat.one_lt_two_pow width.ne')
    rw [← pow_mul] at bound
    rw [Nat.div_lt_iff_lt_mul (Nat.two_pow_pos n),← pow_add,Nat.sub_add_cancel within]
    exact bound
  apply Nat.eq_of_testBit_eq
  intro j
  rw [testBit_value width (shiftRightFill_digits digits small),Nat.testBit_two_pow_mul_add _ low,
    Nat.testBit_div_two_pow,Nat.testBit_two_pow_sub_one,testBit_value width digits]
  have bounds (i : Nat) : i / k < ws.length ↔ i < k * ws.length := by
    rw [Nat.div_lt_iff_lt_mul width,Nat.mul_comm]
  have bit (i : Nat) : i % k < k := Nat.mod_lt i width
  by_cases inside : j / k < ws.length
  · have below := (bounds j).mp inside
    rw [shiftRightFill_testBit true width digits small (fun i less => by simp [less]) inside]
    by_cases kept : j + n < k * ws.length
    · have word := (bounds (j + n)).mpr kept
      rw [if_pos (by omega),List.getD_eq_getElem _ _ word,List.getD_eq_getElem _ _ word]
    · have gone : ¬ (j + n) / k < ws.length := fun word => kept ((bounds (j + n)).mp word)
      rw [if_neg (by omega),List.getD_eq_default _ _ (by omega)]
      simp [bit]
      omega
  · have outside : ¬ j < k * ws.length := fun below => inside ((bounds j).mpr below)
    rw [List.getD_eq_default _ _ (by simpa using inside),if_neg (by omega),Nat.zero_testBit]
    simp
    omega

end right

section above

/-- Set every bit from bit `n` on. -/
def setFrom (k : Nat) (ws : List Nat) (n : Nat) : List Nat :=
  ws.mapIdx fun i w =>
    if i < n / k then w
    else if i = n / k ∧ 0 < n % k then w ||| (2 ^ k - ((1 <<< (n % k) - 1) + 1))
    else 2 ^ k - 1

@[simp] theorem setFrom_length : (setFrom k ws n).length = ws.length := by simp [setFrom]

theorem setFrom_digits (digits : Digits (2 ^ k) ws) : Digits (2 ^ k) (setFrom k ws n) := by
  have positive := Nat.two_pow_pos k
  intro w mem
  obtain ⟨j,bound,rfl⟩ := List.mem_mapIdx.mp mem
  have word : ws[j] < 2 ^ k := digits _ (List.getElem_mem bound)
  split
  · exact word
  · split
    · exact Nat.or_lt_two_pow word (by omega)
    · omega

theorem setFrom_value (width : 0 < k) (digits : Digits (2 ^ k) ws) (within : n ≤ k * ws.length)
    (small : ofDigits (2 ^ k) ws < 2 ^ n) :
    ofDigits (2 ^ k) (setFrom k ws n) = 2 ^ n * (2 ^ (k * ws.length - n) - 1) + ofDigits (2 ^ k) ws := by
  apply Nat.eq_of_testBit_eq
  intro j
  rw [testBit_value width (setFrom_digits digits),Nat.testBit_two_pow_mul_add _ small,
    Nat.testBit_two_pow_sub_one,testBit_value width digits]
  have low := Nat.div_add_mod j k
  have cut := Nat.div_add_mod n k
  have bit := Nat.mod_lt j width
  have edge := Nat.mod_lt n width
  have bounds : j / k < ws.length ↔ j < k * ws.length := by rw [Nat.div_lt_iff_lt_mul width,Nat.mul_comm]
  simp only [setFrom,List.getD_eq_getElem?_getD,List.getElem?_mapIdx]
  by_cases inside : j / k < ws.length
  · have below := bounds.mp inside
    rw [List.getElem?_eq_getElem inside,Option.map_some,Option.getD_some,Option.getD_some]
    rcases Nat.lt_trichotomy (j / k) (n / k) with before | same | after
    · rw [if_pos before,if_pos (lt_of_place width (.inl before))]
    · have cut_here : j < n ↔ j % k < n % k := by
        rw [← low,← cut,same]
        simp
      rw [if_neg (by omega)]
      by_cases partly : 0 < n % k
      · have mask : 1 <<< (n % k) - 1 < 2 ^ k := by
          rw [Nat.one_shiftLeft]
          exact Nat.lt_of_le_of_lt (Nat.sub_le _ _) (Nat.pow_lt_pow_right (by omega) edge)
        rw [if_pos ⟨same,partly⟩,Nat.testBit_or,Nat.testBit_two_pow_sub_succ mask,Nat.one_shiftLeft,
          Nat.testBit_two_pow_sub_one]
        simp only [cut_here]
        split
        · next kept => simp [kept]
        · next raised =>
          simp [bit,raised]
          omega
      · rw [if_neg (by omega),if_neg (by omega),Nat.testBit_two_pow_sub_one]
        simp [bit]
        omega
    · have beyond : ¬ j < n := by
        have scaled := Nat.mul_le_mul_left k after
        rw [Nat.mul_succ] at scaled
        omega
      rw [if_neg (by omega),if_neg (by omega),if_neg beyond,Nat.testBit_two_pow_sub_one]
      simp [bit]
      omega
  · have outside : ¬ j < k * ws.length := fun below => inside (bounds.mpr below)
    rw [List.getElem?_eq_none (by omega),if_neg (by omega)]
    simp
    omega

end above

end Perry.Words
