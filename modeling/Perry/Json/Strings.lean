import Perry.Json.Scan

/-! String literals. The direct parser spells every `\u` escape as its code unit; the
tape keeps only what is a character, so the two agree on the literals whose
surrogate escapes stand in pairs, and on no other. -/
namespace Perry.Json

open Perry.Unicode

section decoding

/-- The code point of a pair of surrogates. -/
def pairCode (high low : Nat) : Nat := 0x10000 + (high - 0xD800) * 1024 + (low - 0xDC00)

/-- The bytes the direct parser makes of a literal. -/
def directBytes : List Item → Bytes
  | [] => []
  | .raw r :: items => r.bytes ++ directBytes items
  | .escape e :: items => e.byte :: directBytes items
  | .unicode a b c d :: .unicode a' b' c' d' :: items =>
    if isHigh (unitOf a b c d) ∧ isLow (unitOf a' b' c' d') then
      encodeUtf8 (pairCode (unitOf a b c d) (unitOf a' b' c' d')) ++ directBytes items
    else Direct.pushCodeUnitWtf8 (unitOf a b c d) ++ directBytes (.unicode a' b' c' d' :: items)
  | .unicode a b c d :: items => Direct.pushCodeUnitWtf8 (unitOf a b c d) ++ directBytes items

/-- The code point the tape computes from a high surrogate and the escape after it. -/
def joinCode (high low : Nat) : Nat :=
  (0x10000 + (high - 0xD800) * 1024 + (low + 0x100000000 - 0xDC00)) % 0x100000000

/-- The bytes the tape makes of a literal. -/
def tapeBytes : List Item → Bytes
  | [] => []
  | .raw r :: items => r.bytes ++ tapeBytes items
  | .escape e :: items => e.byte :: tapeBytes items
  | .unicode a b c d :: .unicode a' b' c' d' :: items =>
    if isHigh (unitOf a b c d) then
      Tape.pushScalar (joinCode (unitOf a b c d) (unitOf a' b' c' d')) ++ tapeBytes items
    else Tape.pushScalar (unitOf a b c d) ++ tapeBytes (.unicode a' b' c' d' :: items)
  | .unicode a b c d :: items =>
    if isHigh (unitOf a b c d) then tapeBytes items else Tape.pushScalar (unitOf a b c d) ++ tapeBytes items

/-- Every surrogate escape is the first or the second half of a pair. -/
def paired : List Item → Bool
  | [] => true
  | .raw _ :: items => paired items
  | .escape _ :: items => paired items
  | .unicode a b c d :: .unicode a' b' c' d' :: items =>
    if isHigh (unitOf a b c d) then isLow (unitOf a' b' c' d') && paired items
    else !isLow (unitOf a b c d) && paired (.unicode a' b' c' d' :: items)
  | .unicode a b c d :: items => !isHigh (unitOf a b c d) && !isLow (unitOf a b c d) && paired items

def Item.units : Item → List Nat
  | .raw r => utf16 r.bytes
  | .escape e => [e.byte.toNat]
  | .unicode a b c d => [unitOf a b c d]

end decoding

section units

theorem HexDigit.value_lt (d : HexDigit) : d.value < 16 := by
  rcases d with ⟨b,valid⟩
  unfold HexDigit.value
  simp only
  unfold hexValue at valid ⊢
  simp only [UInt8.le_iff_toNat_le,UInt8.reduceToNat] at valid ⊢
  split
  · simp only [Option.getD_some]
    omega
  · split
    · simp only [Option.getD_some]
      omega
    · split
      · simp only [Option.getD_some]
        omega
      · simp_all

theorem unitOf_lt (a b c d : HexDigit) : unitOf a b c d < 0x10000 := by
  have ha := a.value_lt
  have hb := b.value_lt
  have hc := c.value_lt
  have hd := d.value_lt
  unfold unitOf
  omega

theorem pushCodeUnitWtf8_eq {u : Nat} (small : u < 0x10000) : Direct.pushCodeUnitWtf8 u = encodeUtf8 u := by
  unfold Direct.pushCodeUnitWtf8
  split
  · next surrogate =>
    have narrow : u / 4096 % 16 = u / 4096 := by omega
    rw [encodeUtf8,if_neg (by omega),if_neg (by omega),if_pos (by omega),narrow]
  · rfl

theorem Escape.byte_ascii (e : Escape) : encodeUtf8 e.byte.toNat = [e.byte] ∧ unitsOf e.byte.toNat = [e.byte.toNat] ∧
    isScalar e.byte.toNat = true := by
  cases e <;> decide

theorem utf16_single {c : Nat} (small : c < 0x10000) (rest : Bytes) : utf16 (encodeUtf8 c ++ rest) = c :: utf16 rest := by
  rw [utf16_encodeUtf8 (by omega),unitsOf,if_pos small]
  rfl

theorem high_range {u : Nat} (high : isHigh u = true) : 0xD800 ≤ u ∧ u ≤ 0xDBFF := by
  simpa [isHigh] using high

theorem low_range {u : Nat} (low : isLow u = true) : 0xDC00 ≤ u ∧ u ≤ 0xDFFF := by
  simpa [isLow] using low

theorem units_pairCode {u v : Nat} (high : isHigh u = true) (low : isLow v = true) :
    pairCode u v < 0x110000 ∧ unitsOf (pairCode u v) = [u,v] := by
  have hu := high_range high
  have hv := low_range low
  have first : 0xD800 + (pairCode u v - 0x10000) / 1024 = u := by
    unfold pairCode
    omega
  have second : 0xDC00 + (pairCode u v - 0x10000) % 1024 = v := by
    unfold pairCode
    omega
  refine ⟨by unfold pairCode; omega,?_⟩
  rw [unitsOf,if_neg (by unfold pairCode; omega),first,second]

theorem Utf8Items.tail {item : Item} {items : List Item} (utf8 : Utf8Items (item :: items)) : Utf8Items items :=
  fun r member => utf8 r (List.mem_cons_of_mem _ member)

theorem Raw.Utf8.units {r : Raw} (utf8 : r.Utf8) :
    ∃ c, isScalar c = true ∧ utf16 r.bytes = unitsOf c ∧ ∀ rest, utf16 (r.bytes ++ rest) = unitsOf c ++ utf16 rest := by
  obtain ⟨c,scalar,spelled⟩ := utf8
  have small := scalar
  simp only [isScalar,decide_eq_true_eq] at small
  refine ⟨c,scalar,?_,fun rest => by rw [spelled,utf16_encodeUtf8 small.1]⟩
  have alone := utf16_encodeUtf8 small.1 []
  rw [List.append_nil] at alone
  rw [spelled,alone,utf16,List.append_nil]

/-- The direct parser's string has one code unit for each escape. -/
theorem utf16_directBytes (items : List Item) (utf8 : Utf8Items items) :
    utf16 (directBytes items) = items.flatMap Item.units := by
  fun_induction directBytes items with
  | case1 => rfl
  | case2 r items ih =>
    obtain ⟨c,scalar,units,append⟩ := (utf8 r List.mem_cons_self).units
    rw [append,ih utf8.tail,List.flatMap_cons,Item.units,units]
  | case3 e items ih =>
    have ascii := e.byte_ascii
    have one := utf16_encodeUtf8 (c := e.byte.toNat) (by have := UInt8.toNat_lt e.byte; omega) (directBytes items)
    rw [ascii.1,ascii.2.1,ih utf8.tail] at one
    exact one
  | case4 a b c d a' b' c' d' rest both ih =>
    obtain ⟨small,halves⟩ := units_pairCode both.1 both.2
    rw [utf16_encodeUtf8 small,halves,ih utf8.tail.tail]
    rfl
  | case5 a b c d a' b' c' d' rest apart ih =>
    rw [pushCodeUnitWtf8_eq (unitOf_lt ..),utf16_single (unitOf_lt ..),ih utf8.tail]
    rfl
  | case6 a b c d items other ih =>
    rw [pushCodeUnitWtf8_eq (unitOf_lt ..),utf16_single (unitOf_lt ..),ih utf8.tail]
    rfl

theorem joinCode_eq {u v : Nat} (high : isHigh u = true) (low : isLow v = true) : joinCode u v = pairCode u v := by
  have hu := high_range high
  have hv := low_range low
  unfold joinCode pairCode
  omega

theorem isScalar_pairCode {u v : Nat} (high : isHigh u = true) (low : isLow v = true) : isScalar (pairCode u v) = true := by
  have hu := high_range high
  have hv := low_range low
  simp only [isScalar,decide_eq_true_eq]
  unfold pairCode
  omega

theorem isScalar_unit {u : Nat} (small : u < 0x10000) (high : isHigh u = false) (low : isLow u = false) :
    isScalar u = true := by
  simp only [isHigh,isLow,decide_eq_false_iff_not] at high low
  simp only [isScalar,decide_eq_true_eq]
  omega

theorem pushScalar_unit {u : Nat} (small : u < 0x10000) (high : isHigh u = false) (low : isLow u = false) :
    Tape.pushScalar u = Direct.pushCodeUnitWtf8 u := by
  rw [Tape.pushScalar,if_pos (isScalar_unit small high low),pushCodeUnitWtf8_eq small]

section lone

variable {a b c d : HexDigit} {items : List Item} (other : ∀ a b c d rest, items = .unicode a b c d :: rest → False)
include other

theorem directBytes_lone : directBytes (.unicode a b c d :: items) =
    Direct.pushCodeUnitWtf8 (unitOf a b c d) ++ directBytes items := by
  cases items with
  | nil => rfl
  | cons item items =>
    cases item with
    | unicode a b c d => exact (other a b c d items rfl).elim
    | _ => rfl

theorem tapeBytes_lone : tapeBytes (.unicode a b c d :: items) =
    if isHigh (unitOf a b c d) then tapeBytes items else Tape.pushScalar (unitOf a b c d) ++ tapeBytes items := by
  cases items with
  | nil => rfl
  | cons item items =>
    cases item with
    | unicode a b c d => exact (other a b c d items rfl).elim
    | _ => rfl

/-- What is no `\u` escape does not start with a low surrogate. -/
theorem units_head_lone (utf8 : Utf8Items items) : ∀ v ∈ (items.flatMap Item.units).head?, isLow v = false := by
  have scalar {c : Nat} (scalar : isScalar c = true) (us : List Nat) : ∀ v ∈ (unitsOf c ++ us).head?, isLow v = false := by
    simp only [isScalar,decide_eq_true_eq] at scalar
    intro v head
    unfold unitsOf at head
    split at head
    · cases head
      simp only [isLow,decide_eq_false_iff_not]
      omega
    · cases head
      simp only [isLow,decide_eq_false_iff_not]
      omega
  cases items with
  | nil => exact fun v none => by cases none
  | cons item items =>
    cases item with
    | raw r =>
      obtain ⟨c,valid,units,-⟩ := (utf8 r List.mem_cons_self).units
      rw [List.flatMap_cons,Item.units,units]
      exact scalar valid _
    | escape e =>
      have ascii := e.byte_ascii
      rw [List.flatMap_cons,Item.units,← ascii.2.1]
      exact scalar ascii.2.2 _
    | unicode a b c d => exact (other a b c d items rfl).elim

end lone

/-- On paired literals the two decoders agree byte for byte. -/
theorem tapeBytes_eq (items : List Item) (pairs : paired items = true) : tapeBytes items = directBytes items := by
  fun_induction paired items with
  | case1 => rfl
  | case2 r items ih => rw [tapeBytes,directBytes,ih pairs]
  | case3 e items ih => rw [tapeBytes,directBytes,ih pairs]
  | case4 a b c d a' b' c' d' items high ih =>
    obtain ⟨low,rest⟩ := Bool.and_eq_true_iff.mp pairs
    rw [tapeBytes,directBytes,if_pos high,if_pos ⟨high,low⟩,ih rest,joinCode_eq high low,Tape.pushScalar,
      if_pos (isScalar_pairCode high low)]
  | case5 a b c d a' b' c' d' items high ih =>
    obtain ⟨low,rest⟩ := Bool.and_eq_true_iff.mp pairs
    have notHigh : isHigh (unitOf a b c d) = false := by simpa using high
    have notLow : isLow (unitOf a b c d) = false := by simpa using low
    rw [tapeBytes,directBytes,if_neg high,if_neg fun both => high both.1,ih rest,
      pushScalar_unit (unitOf_lt ..) notHigh notLow]
  | case6 a b c d items other ih =>
    obtain ⟨plain,rest⟩ := Bool.and_eq_true_iff.mp pairs
    obtain ⟨high,low⟩ := Bool.and_eq_true_iff.mp plain
    have notHigh : isHigh (unitOf a b c d) = false := by simpa using high
    have notLow : isLow (unitOf a b c d) = false := by simpa using low
    rw [tapeBytes_lone other,directBytes_lone other,if_neg (by simp [notHigh]),ih rest,
      pushScalar_unit (unitOf_lt ..) notHigh notLow]

theorem wellFormed_encode {c : Nat} (scalar : isScalar c = true) (rest : Bytes) :
    wellFormed (utf16 (encodeUtf8 c ++ rest)) = wellFormed (utf16 rest) := by
  have small := scalar
  simp only [isScalar,decide_eq_true_eq] at small
  rw [utf16_encodeUtf8 small.1,wellFormed_unitsOf scalar]

theorem wellFormed_pushScalar (c : Nat) (rest : Bytes) :
    wellFormed (utf16 (Tape.pushScalar c ++ rest)) = wellFormed (utf16 rest) := by
  unfold Tape.pushScalar
  split
  · next scalar => exact wellFormed_encode scalar rest
  · rfl

/-- The tape never leaves a surrogate unpaired. -/
theorem wellFormed_tapeBytes (items : List Item) (utf8 : Utf8Items items) : wellFormed (utf16 (tapeBytes items)) = true := by
  fun_induction tapeBytes items with
  | case1 => rfl
  | case2 r items ih =>
    obtain ⟨c,scalar,-,append⟩ := (utf8 r List.mem_cons_self).units
    rw [append,wellFormed_unitsOf scalar,ih utf8.tail]
  | case3 e items ih =>
    have ascii := e.byte_ascii
    have one := wellFormed_encode ascii.2.2 (tapeBytes items)
    rw [ascii.1] at one
    exact one.trans (ih utf8.tail)
  | case4 a b c d a' b' c' d' items high ih => rw [wellFormed_pushScalar,ih utf8.tail.tail]
  | case5 a b c d a' b' c' d' items high ih => rw [wellFormed_pushScalar,ih utf8.tail]
  | case6 a b c d items other high ih => exact ih utf8.tail
  | case7 a b c d items other high ih => rw [wellFormed_pushScalar,ih utf8.tail]

theorem paired_of_wellFormed (items : List Item) (utf8 : Utf8Items items)
    (formed : wellFormed (items.flatMap Item.units) = true) :
    paired items = true := by
  fun_induction paired items with
  | case1 => rfl
  | case2 r items ih =>
    obtain ⟨c,scalar,units,-⟩ := (utf8 r List.mem_cons_self).units
    rw [List.flatMap_cons,Item.units,units,wellFormed_unitsOf scalar] at formed
    exact ih utf8.tail formed
  | case3 e items ih =>
    have ascii := e.byte_ascii
    rw [List.flatMap_cons,Item.units,← ascii.2.1,wellFormed_unitsOf ascii.2.2] at formed
    exact ih utf8.tail formed
  | case4 a b c d a' b' c' d' items high ih =>
    simp only [List.flatMap_cons,Item.units,List.cons_append,List.nil_append,wellFormed,high,if_true,
      Bool.and_eq_true] at formed
    rw [formed.1,ih utf8.tail.tail formed.2]
    rfl
  | case5 a b c d a' b' c' d' items high ih =>
    simp only [List.flatMap_cons,Item.units,List.cons_append,List.nil_append,wellFormed,high,Bool.false_eq_true,if_false,
      Bool.and_eq_true] at formed
    rw [formed.1,ih utf8.tail formed.2]
    rfl
  | case6 a b c d items other ih =>
    rw [List.flatMap_cons,Item.units] at formed
    have next := units_head_lone other utf8.tail
    cases following : items.flatMap Item.units with
    | nil =>
      rw [following] at formed
      have rest := ih utf8.tail (by rw [following]; rfl)
      simp only [List.append_nil,wellFormed] at formed
      rw [formed,rest]
      rfl
    | cons v us =>
      rw [following] at formed next
      have notLow : isLow v = false := next v rfl
      simp only [List.singleton_append,wellFormed,notLow,Bool.false_and] at formed
      split at formed
      · cases formed
      · next high =>
        obtain ⟨low,rest⟩ := Bool.and_eq_true_iff.mp formed
        have notHigh : isHigh (unitOf a b c d) = false := by simpa using high
        rw [notHigh,low,ih utf8.tail (by rw [following]; exact rest)]
        rfl

/-- The two decoders give the same code units exactly on paired literals. -/
theorem utf16_bytes_iff (items : List Item) (utf8 : Utf8Items items) :
    utf16 (tapeBytes items) = utf16 (directBytes items) ↔ paired items = true := by
  refine ⟨fun same => ?_,fun pairs => by rw [tapeBytes_eq items pairs]⟩
  have formed := wellFormed_tapeBytes items utf8
  rw [same,utf16_directBytes items utf8] at formed
  exact paired_of_wellFormed items utf8 formed

end units

end Perry.Json
