import Perry.Unicode.Wtf8

/-! `punycode.rs`: the Bootstring encoder and decoder on code points. The decoder's 32-bit
arithmetic is checked, the encoder's wraps around. -/
namespace Perry.Unicode.Punycode

abbrev base : Nat := 36
abbrev tmin : Nat := 1
abbrev tmax : Nat := 26
abbrev skew : Nat := 38
abbrev damp : Nat := 700
abbrev initialBias : Nat := 72
abbrev initialN : Nat := 128
abbrev delimiter : Nat := 0x2D

section digits

def adaptLoop (delta k : Nat) : Nat × Nat :=
  if (base - tmin) * tmax / 2 < delta then adaptLoop (delta / (base - tmin)) (k + base) else (delta,k)
termination_by delta
decreasing_by exact Nat.div_lt_self (by omega) (by decide)

def adapt (delta numPoints : Nat) (firstTime : Bool) : Nat :=
  let delta := if firstTime then delta / damp else delta / 2
  let delta := delta + delta / numPoints
  let reduced := adaptLoop delta 0
  reduced.2 + (base - tmin + 1) * reduced.1 / (reduced.1 + skew)

def digitToBasic (digit : Nat) : Nat := if digit < 26 then digit + 97 else digit - 26 + 48

def basicToDigit (cp : Nat) : Option Nat :=
  if 0x30 ≤ cp ∧ cp ≤ 0x39 then some (cp - 0x30 + 26)
  else if 0x41 ≤ cp ∧ cp ≤ 0x5A then some (cp - 0x41)
  else if 0x61 ≤ cp ∧ cp ≤ 0x7A then some (cp - 0x61)
  else none

def threshold (k bias : Nat) : Nat :=
  if k ≤ bias then tmin else if bias + tmax ≤ k then tmax else k - bias

theorem threshold_pos (k bias : Nat) : 1 ≤ threshold k bias := by
  unfold threshold tmin tmax
  split_ifs <;> omega

theorem threshold_le (k bias : Nat) : threshold k bias ≤ 26 := by
  unfold threshold tmin tmax
  split_ifs <;> omega

end digits

section decoding

inductive Failure
  | error (message : String)
  /-- A failed index or overflow check of Rust. -/
  | panic

def invalidInput : Failure := .error "Invalid input"

def nonBasic : Failure := .error "Illegal input >= 0x80 (not a basic code point)"

/-- One generalized variable-length integer, added to `i`. -/
def decodeInteger (bias : Nat) : List Nat → Nat → Nat → Nat → Except Failure (Nat × List Nat)
  | [],_,_,_ => .error invalidInput
  | cp :: rest,k,w,i =>
    match basicToDigit cp with
    | none => .error invalidInput
    | some digit =>
      if 2 ^ 32 ≤ digit * w ∨ 2 ^ 32 ≤ i + digit * w then .error invalidInput
      else if digit < threshold k bias then .ok (i + digit * w,rest)
      else if 2 ^ 32 ≤ w * (base - threshold k bias) ∨ 2 ^ 32 ≤ k + base then .error invalidInput
      else decodeInteger bias rest (k + base) (w * (base - threshold k bias)) (i + digit * w)

theorem decodeInteger_length {bias : Nat} {input : List Nat} {k w i : Nat} {read : Nat × List Nat}
    (decoded : decodeInteger bias input k w i = .ok read) : read.2.length < input.length := by
  induction input generalizing k w i with
  | nil => cases decoded
  | cons cp rest ih =>
    unfold decodeInteger at decoded
    split at decoded
    · cases decoded
    · split_ifs at decoded with outside last more
      · cases decoded
        exact Nat.lt_succ_self _
      · exact Nat.lt_succ_of_lt (ih decoded)

/-- Code points are inserted until the input is used up. -/
def decodeLoop (n i bias : Nat) (output input : List Nat) : Except Failure (List Nat) :=
  if input = [] then .ok output
  else match decoded : decodeInteger bias input base 1 i with
    | .error failure => .error failure
    | .ok (next,rest) =>
      let outLen := output.length % 2 ^ 32 + 1
      if 2 ^ 32 ≤ outLen then .error .panic
      else if 2 ^ 32 ≤ n + next / outLen then .error invalidInput
      else if output.length < next % outLen then .error .panic
      else
        decodeLoop (n + next / outLen) (next % outLen + 1) (adapt (next - i) outLen (i = 0))
          (output.insertIdx (next % outLen) (n + next / outLen)) rest
termination_by input.length
decreasing_by exact decodeInteger_length decoded

def rfindDelimiter : List Nat → Option Nat
  | [] => none
  | cp :: rest => match rfindDelimiter rest with
    | some place => some (place + 1)
    | none => if cp = delimiter then some 0 else none

def decode (input : List Nat) : Except Failure (List Nat) := do
  let output ← match rfindDelimiter input with
    | none => decodeLoop initialN 0 initialBias [] input
    | some place =>
      if place = 0 then .error invalidInput
      else if (input.take place).any (0x80 ≤ ·) then .error nonBasic
      else decodeLoop initialN 0 initialBias (input.take place) (input.drop (place + 1))
  if output.all isScalar then pure output else .error invalidInput

end decoding

section encoding

/-- The digits of a generalized variable-length integer, the least one first. -/
def encodeDigits (bias k q : Nat) : List Nat :=
  if q < threshold k bias then [digitToBasic q]
  else
    digitToBasic (threshold k bias + (q - threshold k bias) % (base - threshold k bias)) ::
      encodeDigits bias (k + base) ((q - threshold k bias) / (base - threshold k bias))
termination_by q
decreasing_by
  have positive := threshold_pos k bias
  exact Nat.lt_of_le_of_lt (Nat.div_le_self _ _) (by omega)

structure EncodeState where
  output : List Nat
  delta : Nat
  bias : Nat
  handled : Nat

/-- What the arithmetic does with a sum or a product: `(· % 2 ^ 32)` in the encoder. -/
abbrev Arithmetic := Nat → Nat

variable (wrap : Arithmetic) (basicLength : Nat)

/-- One code point of the inner loop. -/
def encodePoint (n : Nat) (state : EncodeState) (cp : Nat) : EncodeState :=
  let state := if cp < n then { state with delta := wrap (state.delta + 1) } else state
  if cp = n then
    { output := state.output ++ encodeDigits state.bias base state.delta
      delta := 0
      bias := adapt state.delta (state.handled + 1) (state.handled = basicLength)
      handled := state.handled + 1 }
  else state

/-- The smallest code point that is not below the given one. -/
def nextPoint (input : List Nat) (n : Nat) : Nat :=
  input.foldl (fun m cp => if n ≤ cp ∧ cp < m then cp else m) (2 ^ 32 - 1)

theorem filter_shrinks {input : List Nat} {n m : Nat} (member : m ∈ input) (above : n ≤ m) :
    (input.filter (m + 1 ≤ ·)).length < (input.filter (n ≤ ·)).length := by
  have nested : input.filter (m + 1 ≤ ·) = (input.filter (n ≤ ·)).filter (m + 1 ≤ ·) := by
    rw [List.filter_filter]
    apply List.filter_congr
    intro cp _
    rw [Bool.eq_iff_iff]
    simp
    omega
  rw [nested]
  apply List.length_filter_lt_length_iff_exists.mpr
  exact ⟨m,List.mem_filter.mpr ⟨member,by simpa using above⟩,by simp⟩

def encodeLoop (input : List Nat) (total n : Nat) (state : EncodeState) : EncodeState :=
  if state.handled < total then
    -- there is such a code point as long as one is left
    if left : n ≤ nextPoint input n ∧ nextPoint input n ∈ input then
      let m := nextPoint input n
      let state := { state with delta := wrap (state.delta + wrap ((m - n) * (state.handled + 1))) }
      let state := input.foldl (encodePoint wrap basicLength m) state
      encodeLoop input total (m + 1) { state with delta := wrap (state.delta + 1) }
    else state
  else state
termination_by (input.filter (n ≤ ·)).length
decreasing_by
  exact filter_shrinks left.2 left.1

def encodeWith (input : List Nat) : List Nat :=
  let basic := input.filter (· < 0x80)
  let output := if basic = [] then basic else basic ++ [delimiter]
  (encodeLoop wrap basic.length input (input.length % 2 ^ 32) initialN ⟨output,0,initialBias,basic.length⟩).output

def encode (input : List Nat) : List Nat := encodeWith (· % 2 ^ 32) input

end encoding

section bounds

variable {delta numPoints : Nat} {firstTime : Bool}

theorem adaptLoop_spec {delta k : Nat} {rounds : Nat} (small : delta ≤ 455 * 35 ^ rounds) :
    (adaptLoop delta k).1 ≤ 455 ∧ (adaptLoop delta k).2 ≤ k + 36 * rounds := by
  induction rounds generalizing delta k with
  | zero =>
    rw [adaptLoop,if_neg (by norm_num at small ⊢; exact small)]
    exact ⟨by simpa using small,Nat.le_add_right _ _⟩
  | succ rounds ih =>
    rw [adaptLoop]
    split
    · have next : delta / (base - tmin) ≤ 455 * 35 ^ rounds := by
        apply Nat.div_le_of_le_mul
        rw [pow_succ] at small
        calc delta ≤ 455 * (35 ^ rounds * 35) := small
          _ = (base - tmin) * (455 * 35 ^ rounds) := by
            unfold base tmin
            ring
      obtain ⟨reduced,place⟩ := ih (k := k + base) next
      refine ⟨reduced,place.trans ?_⟩
      unfold base
      omega
    · rename_i done
      refine ⟨?_,Nat.le_add_right _ _⟩
      norm_num at done
      exact done

/-- The sum of `adapt` stays in 32 bits. -/
theorem adapt_sum (numPoints : Nat) (firstTime : Bool) (small : delta < 2 ^ 32) :
    (if firstTime then delta / damp else delta / 2) + (if firstTime then delta / damp else delta / 2) / numPoints < 2 ^ 32 := by
  have half : (if firstTime = true then delta / damp else delta / 2) < 2 ^ 31 := by
    split
    · exact Nat.lt_of_le_of_lt (Nat.div_le_div_left (by decide : 2 ≤ damp) (by decide)) (by omega)
    · omega
  have part := Nat.div_le_self (if firstTime = true then delta / damp else delta / 2) numPoints
  omega

/-- The bias stays small, and with it the number of digits. -/
theorem adapt_le (small : delta < 2 ^ 32) : adapt delta numPoints firstTime ≤ 213 := by
  have sum := adapt_sum numPoints firstTime small
  unfold adapt
  dsimp only
  generalize (if firstTime = true then delta / damp else delta / 2) = reduced at *
  obtain ⟨low,place⟩ := adaptLoop_spec (k := 0) (show reduced + reduced / numPoints ≤ 455 * 35 ^ 5 by omega)
  generalize adaptLoop (reduced + reduced / numPoints) 0 = result at *
  have quotient : (base - tmin + 1) * result.1 / (result.1 + skew) ≤ 33 := by
    rw [Nat.div_le_iff_le_mul_add_pred (by unfold skew; omega)]
    unfold base tmin skew
    omega
  omega

end bounds

section integers

variable {bias k w i q : Nat} {input rest : List Nat}

theorem basicToDigit_digitToBasic : ∀ d : Fin 36,basicToDigit (digitToBasic d) = some d.val := by decide

/-- The digits that the encoder writes. -/
def LowerDigits (input : List Nat) : Prop := ∀ cp ∈ input,¬(0x41 ≤ cp ∧ cp ≤ 0x5A)

theorem digitToBasic_basicToDigit {cp digit : Nat} (lower : ¬(0x41 ≤ cp ∧ cp ≤ 0x5A))
    (read : basicToDigit cp = some digit) : digitToBasic digit = cp ∧ digit < 36 := by
  unfold basicToDigit at read
  unfold digitToBasic
  split_ifs at read with number letter
  · cases read
    rw [if_neg (by omega)]
    omega
  · cases read
    rw [if_pos (by omega)]
    omega

/-- A digit that is not the last one, and the rest of the number. -/
theorem encodeDigits_more {digit : Nat} (more : threshold k bias ≤ digit) (small : digit < 36) (q : Nat) :
    encodeDigits bias k (digit + q * (base - threshold k bias)) = digitToBasic digit :: encodeDigits bias (k + base) q := by
  have positive : 0 < base - threshold k bias := by
    have := threshold_le k bias
    unfold base
    omega
  have reach : digit - threshold k bias < base - threshold k bias := by
    unfold base
    omega
  have split : digit + q * (base - threshold k bias) - threshold k bias =
      (digit - threshold k bias) + (base - threshold k bias) * q := by
    rw [Nat.mul_comm]
    omega
  rw [encodeDigits,if_neg (by omega),split,Nat.add_mul_mod_self_left,Nat.mod_eq_of_lt reach,
    Nat.add_mul_div_left _ _ positive,Nat.div_eq_of_lt reach,Nat.zero_add]
  congr 2
  omega

/-- What is read as a number is how the encoder spells it. -/
theorem decodeInteger_sound {next : Nat} (lower : LowerDigits input)
    (decoded : decodeInteger bias input k w i = .ok (next,rest)) :
    ∃ q,next = i + q * w ∧ next < 2 ^ 32 ∧ input = encodeDigits bias k q ++ rest := by
  induction input generalizing k w i with
  | nil => cases decoded
  | cons cp input ih =>
    unfold decodeInteger at decoded
    split at decoded
    · cases decoded
    · rename_i digit read
      obtain ⟨same,small⟩ := digitToBasic_basicToDigit (lower cp List.mem_cons_self) read
      split_ifs at decoded with outside last more
      · cases decoded
        refine ⟨digit,rfl,by omega,?_⟩
        rw [encodeDigits,if_pos last,same]
        rfl
      · obtain ⟨q,value,bound,spelled⟩ := ih (fun cp member => lower cp (List.mem_cons_of_mem _ member)) decoded
        refine ⟨digit + q * (base - threshold k bias),?_,bound,?_⟩
        · rw [value]
          ring
        · rw [encodeDigits_more (Nat.not_lt.mp last) small,same,spelled]
          rfl

/-- The weight of a digit that is not the last one fits 32 bits. -/
theorem weight_fits {place : Nat} (low : bias ≤ 213) (weight : w ≤ 35 ^ place) (more : threshold (36 * (place + 1)) bias ≤ q)
    (bound : q * w < 2 ^ 32) : w * (base - threshold (36 * (place + 1)) bias) < 2 ^ 32 := by
  have top := threshold_le (36 * (place + 1)) bias
  rcases Nat.lt_or_ge (threshold (36 * (place + 1)) bias) 18 with early | late
  · have near : place ≤ 5 := by
      unfold threshold tmin tmax at early
      split_ifs at early with within beyond <;> omega
    calc w * (base - threshold (36 * (place + 1)) bias) ≤ 35 ^ 5 * 35 :=
          Nat.mul_le_mul (weight.trans (Nat.pow_le_pow_right (by decide) near)) (by
            have := threshold_pos (36 * (place + 1)) bias
            unfold base
            omega)
      _ < 2 ^ 32 := by norm_num
  · calc w * (base - threshold (36 * (place + 1)) bias) ≤ w * q :=
          Nat.mul_le_mul_left w (by unfold base; omega)
      _ = q * w := Nat.mul_comm w q
      _ < 2 ^ 32 := bound

/-- The decoder reads what the encoder spells, as long as the sum fits 32 bits. -/
theorem decodeInteger_encodeDigits (place : Nat) (low : bias ≤ 213) (weight : w ≤ 35 ^ place) (heavy : 10 ^ place ≤ w)
    (bound : i + q * w < 2 ^ 32) (rest : List Nat) :
    decodeInteger bias (encodeDigits bias (36 * (place + 1)) q ++ rest) (36 * (place + 1)) w i = .ok (i + q * w,rest) := by
  induction q using Nat.strong_induction_on generalizing place w i with
  | _ q ih =>
    have top := threshold_le (36 * (place + 1)) bias
    have positive := threshold_pos (36 * (place + 1)) bias
    rw [encodeDigits]
    split
    · rename_i last
      have read := basicToDigit_digitToBasic ⟨q,by omega⟩
      rw [List.singleton_append,decodeInteger,read]
      dsimp only
      rw [if_neg (by omega),if_pos last]
    · rename_i more
      have room : 0 < base - threshold (36 * (place + 1)) bias := by
        unfold base
        omega
      have reach := Nat.mod_lt (q - threshold (36 * (place + 1)) bias) room
      have whole := Nat.mod_add_div' (q - threshold (36 * (place + 1)) bias) (base - threshold (36 * (place + 1)) bias)
      have fits := weight_fits low weight (Nat.not_lt.mp more) (by omega)
      have shrinks : (q - threshold (36 * (place + 1)) bias) / (base - threshold (36 * (place + 1)) bias) < q :=
        Nat.lt_of_le_of_lt (Nat.div_le_self _ _) (by omega)
      have light : w * (base - threshold (36 * (place + 1)) bias) ≤ 35 ^ (place + 1) := by
        rw [pow_succ]
        exact Nat.mul_le_mul weight (by unfold base; omega)
      have heavier : 10 ^ (place + 1) ≤ w * (base - threshold (36 * (place + 1)) bias) := by
        rw [pow_succ]
        exact Nat.mul_le_mul heavy (by unfold base; omega)
      have near : place < 10 := by
        by_contra far
        have least : 10 ^ 10 ≤ 10 ^ place := Nat.pow_le_pow_right (by decide) (Nat.not_lt.mp far)
        have positive : w ≤ q * w := Nat.le_mul_of_pos_left w (by omega)
        omega
      generalize same : threshold (36 * (place + 1)) bias = t at *
      generalize (q - t) / (base - t) = quotient at *
      generalize (q - t) % (base - t) = remainder at *
      have digit : t + remainder < 36 := by
        unfold base at reach
        omega
      have parts : q = t + remainder + quotient * (base - t) := by omega
      have value : (t + remainder) * w + quotient * (w * (base - t)) = q * w := by
        rw [parts]
        ring
      have read := basicToDigit_digitToBasic ⟨t + remainder,digit⟩
      have rounds := ih quotient shrinks (place + 1) light heavier (i := i + (t + remainder) * w) (by omega)
      rw [List.cons_append,decodeInteger,read]
      dsimp only
      rw [same,if_neg (by omega),if_neg (by omega),if_neg (by change ¬(2 ^ 32 ≤ w * (base - t) ∨ 2 ^ 32 ≤ _ + 36); omega)]
      have value_rest : i + (t + remainder) * w + quotient * (w * (base - t)) = i + q * w := by omega
      rw [value_rest] at rounds
      exact rounds

end integers

end Perry.Unicode.Punycode
