import Perry.Json.Strings

/-! Both string scanners over a literal: each consumes it to the closing quote and
decodes it as `directBytes` and `tapeBytes` say. -/
namespace Perry.Json

open Perry.Unicode

section bytes

/-- Neither scanner stops at a plain byte. -/
theorem plain_iff {b : UInt8} : Plain b ↔ Direct.isTerminator b = false := by
  simp [Plain,Direct.isTerminator]

@[simp] theorem simpleEscape_letter (e : Escape) : simpleEscape e.letter = some e.byte := by
  cases e <;> decide

theorem simpleEscape_u : simpleEscape lowerU = none := by decide

theorem HexDigit.hexValue_byte (d : HexDigit) : hexValue d.byte = some d.value := by
  obtain ⟨n,digit⟩ := Option.isSome_iff_exists.mp d.valid
  rw [HexDigit.value,digit]
  rfl

theorem hexDigits_unit (a b c d : HexDigit) : hexDigits [a.byte,b.byte,c.byte,d.byte] = some (unitOf a b c d) := by
  simp [hexDigits,HexDigit.hexValue_byte,unitOf]

theorem decodeHexU16_unit (a b c d : HexDigit) :
    Direct.decodeHexU16 [a.byte,b.byte,c.byte,d.byte] = some (unitOf a b c d) := by
  simp [Direct.decodeHexU16,hexDigits_unit]

theorem fromStrRadix16_unit (a b c d : HexDigit) :
    Tape.fromStrRadix16 [a.byte,b.byte,c.byte,d.byte] = some (unitOf a b c d) := by
  have unsigned : a.byte ≠ plus := by
    intro equal
    have digit := a.hexValue_byte
    rw [equal] at digit
    cases digit
  simp [Tape.fromStrRadix16,unsigned,hexDigits_unit]

end bytes

theorem renderItems_cons (item : Item) (items : List Item) :
    renderItems (item :: items) = item.render ++ renderItems items := List.flatMap_cons

theorem Item.render_cons (item : Item) : ∃ b bs, item.render = b :: bs := by
  cases item with
  | raw r => exact List.exists_cons_of_ne_nil r.some
  | escape e => exact ⟨_,_,rfl⟩
  | unicode a b c d => exact ⟨_,_,rfl⟩

theorem fuel_step {item : Item} {items : List Item} {n : Nat} (fuel : (renderItems (item :: items)).length < n) :
    ∃ m, n = m + 1 ∧ (renderItems items).length < m := by
  obtain ⟨b,bs,rendered⟩ := item.render_cons
  rw [renderItems_cons,rendered,List.length_append,List.length_cons] at fuel
  exact ⟨n - 1,by omega,by omega⟩

/-- Whether the input goes on with a `\u` escape. -/
def StartsUnicode (rest : Bytes) : Prop := 6 ≤ rest.length ∧ rest.head? = some backslash ∧ rest.tail.head? = some lowerU

theorem startsUnicode_render (a b c d : HexDigit) (rest : Bytes) : StartsUnicode ((Item.unicode a b c d).render ++ rest) :=
  ⟨by simp [Item.render],rfl,rfl⟩

theorem not_startsUnicode {items : List Item} (other : ∀ a b c d rest, items = .unicode a b c d :: rest → False)
    (rest : Bytes) : ¬StartsUnicode (renderItems items ++ quote :: rest) := by
  intro starts
  obtain ⟨-,first,second⟩ := starts
  cases items with
  | nil => cases first
  | cons item items =>
    cases item with
    | raw r =>
      have plain := r.plain
      obtain ⟨b,bs,encoded⟩ := List.exists_cons_of_ne_nil r.some
      rw [encoded] at plain
      simp only [renderItems,List.flatMap_cons,Item.render,encoded,List.cons_append,List.head?_cons,
        Option.some.injEq] at first
      exact (plain b List.mem_cons_self).2.1 first
    | escape e =>
      simp only [renderItems,List.flatMap_cons,Item.render,List.cons_append,List.tail_cons,List.head?_cons,
        Option.some.injEq] at second
      revert second
      cases e <;> decide
    | unicode a b c d => exact other a b c d items rfl

section direct

open Direct

theorem slow_plain {bs : Bytes} (plain : ∀ b ∈ bs, Plain b) (n : Nat) (result rest : Bytes) :
    parseStringBytesSlow (bs.length + n) result (bs ++ rest) = parseStringBytesSlow n (result ++ bs) rest := by
  induction bs generalizing result with
  | nil => simp
  | cons b bs ih =>
    obtain ⟨notQuote,notBackslash,printable⟩ := plain b List.mem_cons_self
    have fuel : (b :: bs).length + n = bs.length + n + 1 := by
      rw [List.length_cons]
      omega
    rw [fuel,List.cons_append,parseStringBytesSlow.eq_def]
    simp only [notQuote,notBackslash,printable,if_false]
    rw [ih (fun c member => plain c (List.mem_cons_of_mem _ member)),List.append_assoc]
    rfl

theorem slow_escape (n : Nat) (e : Escape) (result rest : Bytes) :
    parseStringBytesSlow (n + 1) result (backslash :: e.letter :: rest) = parseStringBytesSlow n (result ++ [e.byte]) rest := by
  rw [parseStringBytesSlow.eq_def]
  simp [show backslash ≠ quote by decide]

theorem pairedLow_unicode {code : Nat} (high : isHigh code = true) (a b c d : HexDigit) (rest : Bytes) :
    pairedLow code ((Item.unicode a b c d).render ++ rest) = (some (unitOf a b c d)).filter isLow := by
  have four : ((backslash :: lowerU :: a.byte :: b.byte :: c.byte :: d.byte :: rest).drop 2).take 4 =
      [a.byte,b.byte,c.byte,d.byte] := rfl
  rw [Item.render,pairedLow,if_pos,List.cons_append,List.cons_append,List.cons_append,List.cons_append,List.cons_append,
    List.cons_append,List.nil_append,four,decodeHexU16_unit]
  exact ⟨high,startsUnicode_render a b c d rest⟩

theorem pairedLow_not_high {code : Nat} (high : isHigh code = false) (rest : Bytes) : pairedLow code rest = none := by
  rw [pairedLow,if_neg]
  rw [high]
  exact fun both => Bool.false_ne_true both.1

theorem pairedLow_other {items : List Item} (other : ∀ a b c d rest, items = .unicode a b c d :: rest → False)
    (code : Nat) (rest : Bytes) : pairedLow code (renderItems items ++ quote :: rest) = none := by
  rw [pairedLow,if_neg]
  exact fun both => not_startsUnicode other rest both.2

theorem slow_unicode {a b c d : HexDigit} {rest : Bytes} (n : Nat) (result : Bytes) :
    parseStringBytesSlow (n + 1) result ((Item.unicode a b c d).render ++ rest) =
      match pairedLow (unitOf a b c d) rest with
      | some low => parseStringBytesSlow n (result ++ encodeUtf8 (pairCode (unitOf a b c d) low)) (rest.drop 6)
      | none => parseStringBytesSlow n (result ++ pushCodeUnitWtf8 (unitOf a b c d)) rest := by
  rw [parseStringBytesSlow.eq_def]
  simp only [Item.render,List.cons_append,List.nil_append,show backslash ≠ quote by decide,if_false,if_true,
    simpleEscape_u,List.take_succ_cons,List.take_zero,decodeHexU16_unit,List.drop_succ_cons,List.drop_zero]
  rfl

theorem slow_items (items : List Item) (n : Nat) (fuel : (renderItems items).length < n) (result rest : Bytes) :
    parseStringBytesSlow n result (renderItems items ++ quote :: rest) = some (result ++ directBytes items,rest) := by
  -- one unit of fuel for each item, and one for each byte of a raw one
  fun_induction directBytes items generalizing n result with
  | case1 =>
    obtain ⟨m,rfl⟩ : ∃ m, n = m + 1 := ⟨n - 1,by simp only [renderItems,List.flatMap_nil,List.length_nil] at fuel; omega⟩
    rw [parseStringBytesSlow.eq_def]
    simp [renderItems]
  | case2 r items ih =>
    rw [renderItems_cons,List.length_append] at fuel
    obtain ⟨m,rfl⟩ := Nat.exists_eq_add_of_le (Nat.le_of_lt (Nat.lt_of_le_of_lt (Nat.le_add_right _ _) fuel))
    rw [renderItems_cons,List.append_assoc,Item.render,slow_plain r.plain,ih m (by rw [Item.render] at fuel; omega),
      List.append_assoc]
  | case3 e items ih =>
    obtain ⟨m,rfl,enough⟩ := fuel_step fuel
    rw [renderItems_cons,List.append_assoc,Item.render,List.cons_append,List.singleton_append,slow_escape,ih m enough,
      List.append_assoc]
    rfl
  | case4 a b c d a' b' c' d' items both ih =>
    obtain ⟨m,rfl,enough⟩ := fuel_step fuel
    rw [renderItems_cons,List.append_assoc,slow_unicode,renderItems_cons,List.append_assoc,pairedLow_unicode both.1,
      Option.filter_some,if_pos both.2]
    have tail : (renderItems items).length < m := by
      rw [renderItems_cons,List.length_append] at enough
      omega
    simp only [Item.render,List.cons_append,List.nil_append,List.drop_succ_cons,List.drop_zero]
    rw [ih m tail,List.append_assoc]
  | case5 a b c d a' b' c' d' items apart ih =>
    obtain ⟨m,rfl,enough⟩ := fuel_step fuel
    have alone : pairedLow (unitOf a b c d) (renderItems (.unicode a' b' c' d' :: items) ++ quote :: rest) = none := by
      cases high : isHigh (unitOf a b c d) with
      | false => exact pairedLow_not_high high _
      | true =>
        rw [renderItems_cons,List.append_assoc,pairedLow_unicode high,Option.filter_some,if_neg]
        exact fun low => apart ⟨high,low⟩
    rw [renderItems_cons,List.append_assoc,slow_unicode,alone,ih m enough,List.append_assoc]
  | case6 a b c d items other ih =>
    obtain ⟨m,rfl,enough⟩ := fuel_step fuel
    rw [renderItems_cons,List.append_assoc,slow_unicode,pairedLow_other other]
    simp only
    rw [ih m enough,List.append_assoc]

theorem parseStringBytes_literal (items : List Item) (rest : Bytes) :
    parseStringBytes (renderString items ++ rest) = some (directBytes items,rest) := by
  rw [renderString,List.cons_append,List.append_assoc,List.singleton_append,parseStringBytes,if_pos rfl]
  generalize input_eq : renderItems items ++ quote :: rest = input
  have plain : ∀ b ∈ input.takeWhile (!isTerminator ·), Plain b := fun b member => by
    exact plain_iff.mpr (by simpa using List.all_eq_true.mp List.all_takeWhile b member)
  have whole : parseStringBytesSlow ((input.takeWhile (!isTerminator ·)).length + (input.length + 1)) []
      (input.takeWhile (!isTerminator ·) ++ input.dropWhile (!isTerminator ·)) = some (directBytes items,rest) := by
    rw [List.takeWhile_append_dropWhile,← input_eq]
    apply slow_items
    rw [List.length_append]
    omega
  rw [slow_plain plain,List.nil_append] at whole
  cases tail : input.dropWhile (!isTerminator ·) with
  | nil =>
    rw [tail] at whole
    cases whole
  | cons ch tail' =>
    rw [tail] at whole
    simp only
    split
    · next same =>
      rw [parseStringBytesSlow.eq_def] at whole
      simpa [same] using whole
    · split
      · next notQuote control =>
        have notBackslash : ch ≠ backslash := by
          intro equal
          rw [equal] at control
          exact absurd control (by decide)
        rw [parseStringBytesSlow.eq_def] at whole
        simp [notQuote,notBackslash,control] at whole
      · exact whole

end direct

section tape

theorem tape_slow_plain {bs : Bytes} (plain : ∀ b ∈ bs, Tape.isTerminator b = false) (n : Nat) (result rest : Bytes) :
    Tape.parseStringBytesSlow (bs.length + n) result (bs ++ rest) = Tape.parseStringBytesSlow n (result ++ bs) rest := by
  induction bs generalizing result with
  | nil => simp
  | cons b bs ih =>
    have stop := plain b List.mem_cons_self
    simp only [Tape.isTerminator,decide_eq_false_iff_not,not_or] at stop
    have fuel : (b :: bs).length + n = bs.length + n + 1 := by
      rw [List.length_cons]
      omega
    rw [fuel,List.cons_append,Tape.parseStringBytesSlow.eq_def]
    simp only [stop.1,stop.2,if_false]
    rw [ih (fun c member => plain c (List.mem_cons_of_mem _ member)),List.append_assoc]
    rfl

theorem Plain.tape {b : UInt8} (plain : Plain b) : Tape.isTerminator b = false := by
  obtain ⟨notQuote,notBackslash,-⟩ := plain
  simp [Tape.isTerminator,notQuote,notBackslash]

theorem tape_slow_escape (n : Nat) (e : Escape) (result rest : Bytes) :
    Tape.parseStringBytesSlow (n + 1) result (backslash :: e.letter :: rest) =
      Tape.parseStringBytesSlow n (result ++ [e.byte]) rest := by
  rw [Tape.parseStringBytesSlow.eq_def]
  simp [show backslash ≠ quote by decide]

theorem tape_slow_unicode {a b c d : HexDigit} {rest : Bytes} (n : Nat) (result : Bytes) :
    Tape.parseStringBytesSlow (n + 1) result ((Item.unicode a b c d).render ++ rest) =
      if isHigh (unitOf a b c d) then
        if 6 ≤ rest.length ∧ rest.head? = some backslash ∧ rest.tail.head? = some lowerU then
          match Tape.fromStrRadix16 ((rest.drop 2).take 4) with
          | none => none
          | some low =>
            Tape.parseStringBytesSlow n (result ++ Tape.pushScalar (joinCode (unitOf a b c d) low)) (rest.drop 6)
        else Tape.parseStringBytesSlow n result rest
      else Tape.parseStringBytesSlow n (result ++ Tape.pushScalar (unitOf a b c d)) rest := by
  rw [Tape.parseStringBytesSlow.eq_def]
  simp only [Item.render,List.cons_append,List.nil_append,show backslash ≠ quote by decide,if_false,if_true,
    simpleEscape_u,List.take_succ_cons,List.take_zero,fromStrRadix16_unit,List.drop_succ_cons,List.drop_zero,
    List.length_cons]
  rw [if_pos (by omega)]
  rfl

theorem tape_slow_join {a b c d a' b' c' d' : HexDigit} (high : isHigh (unitOf a b c d) = true) (n : Nat)
    (result rest : Bytes) :
    Tape.parseStringBytesSlow (n + 1) result
        ((Item.unicode a b c d).render ++ ((Item.unicode a' b' c' d').render ++ rest)) =
      Tape.parseStringBytesSlow n (result ++ Tape.pushScalar (joinCode (unitOf a b c d) (unitOf a' b' c' d'))) rest := by
  rw [tape_slow_unicode,if_pos high]
  refine (if_pos (startsUnicode_render a' b' c' d' rest)).trans ?_
  simp only [Item.render,List.cons_append,List.nil_append,List.drop_succ_cons,List.drop_zero,List.take_succ_cons,
    List.take_zero,fromStrRadix16_unit]

theorem tape_slow_lone {a b c d : HexDigit} {rest : Bytes} (high : isHigh (unitOf a b c d) = true)
    (alone : ¬StartsUnicode rest) (n : Nat) (result : Bytes) :
    Tape.parseStringBytesSlow (n + 1) result ((Item.unicode a b c d).render ++ rest) =
      Tape.parseStringBytesSlow n result rest := by
  rw [tape_slow_unicode,if_pos high]
  exact if_neg alone

theorem tape_slow_unit {a b c d : HexDigit} {rest : Bytes} (high : ¬isHigh (unitOf a b c d) = true) (n : Nat)
    (result : Bytes) :
    Tape.parseStringBytesSlow (n + 1) result ((Item.unicode a b c d).render ++ rest) =
      Tape.parseStringBytesSlow n (result ++ Tape.pushScalar (unitOf a b c d)) rest := by
  rw [tape_slow_unicode,if_neg high]

theorem tape_slow_items (items : List Item) (n : Nat) (fuel : (renderItems items).length < n) (result rest : Bytes) :
    Tape.parseStringBytesSlow n result (renderItems items ++ quote :: rest) = some (result ++ tapeBytes items) := by
  fun_induction tapeBytes items generalizing n result with
  | case1 =>
    obtain ⟨m,rfl⟩ := Nat.exists_eq_add_one_of_ne_zero (Nat.ne_zero_of_lt fuel)
    rw [Tape.parseStringBytesSlow.eq_def]
    simp [renderItems]
  | case2 r items ih =>
    rw [renderItems_cons,List.length_append] at fuel
    obtain ⟨m,rfl⟩ := Nat.exists_eq_add_of_le (Nat.le_of_lt (Nat.lt_of_le_of_lt (Nat.le_add_right _ _) fuel))
    rw [renderItems_cons,List.append_assoc,Item.render,tape_slow_plain fun b member => (r.plain b member).tape,
      ih m (by rw [Item.render] at fuel; omega),List.append_assoc]
  | case3 e items ih =>
    obtain ⟨m,rfl,enough⟩ := fuel_step fuel
    rw [renderItems_cons,List.append_assoc,Item.render,List.cons_append,List.singleton_append,tape_slow_escape,
      ih m enough,List.append_assoc]
    rfl
  | case4 a b c d a' b' c' d' items high ih =>
    obtain ⟨m,rfl,enough⟩ := fuel_step fuel
    have tail : (renderItems items).length < m := by
      rw [renderItems_cons,List.length_append] at enough
      omega
    rw [renderItems_cons,List.append_assoc,renderItems_cons,List.append_assoc,tape_slow_join high,ih m tail,
      List.append_assoc]
  | case5 a b c d a' b' c' d' items high ih =>
    obtain ⟨m,rfl,enough⟩ := fuel_step fuel
    rw [renderItems_cons,List.append_assoc,tape_slow_unit high,ih m enough,List.append_assoc]
  | case6 a b c d items other high ih =>
    obtain ⟨m,rfl,enough⟩ := fuel_step fuel
    rw [renderItems_cons,List.append_assoc,tape_slow_lone high (not_startsUnicode other rest),ih m enough]
  | case7 a b c d items other high ih =>
    obtain ⟨m,rfl,enough⟩ := fuel_step fuel
    rw [renderItems_cons,List.append_assoc,tape_slow_unit high,ih m enough,List.append_assoc]

theorem parseStringBytesStatic_literal (items : List Item) (rest : Bytes) :
    Tape.parseStringBytesStatic (renderString items ++ rest) = some (tapeBytes items) := by
  rw [renderString,List.cons_append,List.append_assoc,List.singleton_append,Tape.parseStringBytesStatic,if_pos rfl]
  generalize input_eq : renderItems items ++ quote :: rest = input
  have plain : ∀ b ∈ input.takeWhile (!Tape.isTerminator ·), Tape.isTerminator b = false := fun b member => by
    simpa using List.all_eq_true.mp List.all_takeWhile b member
  have whole : Tape.parseStringBytesSlow ((input.takeWhile (!Tape.isTerminator ·)).length + (input.length + 1)) []
      (input.takeWhile (!Tape.isTerminator ·) ++ input.dropWhile (!Tape.isTerminator ·)) = some (tapeBytes items) := by
    rw [List.takeWhile_append_dropWhile,← input_eq]
    apply tape_slow_items
    rw [List.length_append]
    omega
  rw [tape_slow_plain plain,List.nil_append] at whole
  cases tail : input.dropWhile (!Tape.isTerminator ·) with
  | nil =>
    rw [tail] at whole
    cases whole
  | cons c tail' =>
    rw [tail] at whole
    simp only
    split
    · next same =>
      rw [Tape.parseStringBytesSlow.eq_def] at whole
      simpa [same] using whole
    · exact whole

theorem skip_plain {bs : Bytes} (plain : ∀ b ∈ bs, Plain b) (n : Nat) (rest : Bytes) :
    Tape.skipString (bs.length + n) (bs ++ rest) = Tape.skipString n rest := by
  induction bs with
  | nil => simp
  | cons b bs ih =>
    obtain ⟨notQuote,notBackslash,printable⟩ := plain b List.mem_cons_self
    have fuel : (b :: bs).length + n = bs.length + n + 1 := by
      rw [List.length_cons]
      omega
    rw [fuel,List.cons_append,Tape.skipString.eq_def]
    simp only [notQuote,notBackslash,printable,if_false]
    exact ih fun c member => plain c (List.mem_cons_of_mem _ member)

/-- The tape builder steps over a literal. -/
theorem skip_items (items : List Item) (n : Nat) (fuel : (renderItems items).length < n) (rest : Bytes) :
    Tape.skipString n (renderItems items ++ quote :: rest) = some rest := by
  induction items generalizing n with
  | nil =>
    obtain ⟨m,rfl⟩ := Nat.exists_eq_add_one_of_ne_zero (Nat.ne_zero_of_lt fuel)
    rw [Tape.skipString.eq_def]
    simp [renderItems]
  | cons item items ih =>
    cases item with
    | raw r =>
      rw [renderItems_cons,List.length_append] at fuel
      obtain ⟨m,rfl⟩ := Nat.exists_eq_add_of_le (Nat.le_of_lt (Nat.lt_of_le_of_lt (Nat.le_add_right _ _) fuel))
      rw [renderItems_cons,List.append_assoc,Item.render,skip_plain r.plain,ih m (by rw [Item.render] at fuel; omega)]
    | escape e =>
      obtain ⟨m,rfl,enough⟩ := fuel_step fuel
      rw [renderItems_cons,List.append_assoc,Tape.skipString.eq_def]
      simp [Item.render,show backslash ≠ quote by decide,Tape.isSimple,ih m enough]
    | unicode a b c d =>
      obtain ⟨m,rfl,enough⟩ := fuel_step fuel
      rw [renderItems_cons,List.append_assoc,Tape.skipString.eq_def]
      simp [Item.render,show backslash ≠ quote by decide,Tape.isSimple,simpleEscape_u,HexDigit.valid,ih m enough]

end tape

end Perry.Json
