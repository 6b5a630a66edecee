import Mathlib.Data.List.TakeWhile
import Perry.Json.Agreement

/-! The texts are all that either front end accepts: what a scanner has consumed is a
token of the grammar, and an accepting run leaves a derivation behind. -/
namespace Perry.Json

section strings

theorem Space.of_isSpace {b : UInt8} (space : isSpace b = true) : ∃ s : Space, s.byte = b := by
  simp only [isSpace,decide_eq_true_eq] at space
  obtain rfl | rfl | rfl | rfl := space
  exacts [⟨.blank,rfl⟩,⟨.tab,rfl⟩,⟨.newline,rfl⟩,⟨.carriage,rfl⟩]

theorem split_gap (input : Bytes) : ∃ gap, input = renderGap gap ++ skipWhitespace input := by
  induction input with
  | nil => exact ⟨[],rfl⟩
  | cons b input ih =>
    obtain ⟨gap,split⟩ := ih
    by_cases space : isSpace b = true
    · obtain ⟨s,rfl⟩ := Space.of_isSpace space
      have step : skipWhitespace (s.byte :: input) = skipWhitespace input := List.dropWhile_cons_of_pos space
      refine ⟨s :: gap,?_⟩
      rw [step,renderGap,List.map_cons,List.cons_append,← renderGap,← split]
    · exact ⟨[],(List.dropWhile_cons_of_neg space).symm⟩

theorem Escape.of_simple {esc b : UInt8} (simple : simpleEscape esc = some b) : ∃ e : Escape, e.letter = esc := by
  by_contra other
  have differ (e : Escape) : esc ≠ e.letter := fun same => other ⟨e,same.symm⟩
  have none : simpleEscape esc = none :=
    (if_neg (differ .quote)).trans <| (if_neg (differ .backslash)).trans <| (if_neg (differ .slash)).trans <|
      (if_neg (differ .newline)).trans <| (if_neg (differ .carriage)).trans <| (if_neg (differ .tab)).trans <|
        (if_neg (differ .backspace)).trans <| if_neg (differ .formFeed)
  rw [none] at simple
  cases simple

theorem hex_of_digits {bs : Bytes} {code : Nat} (digits : hexDigits bs = some code) :
    ∀ b ∈ bs, (hexValue b).isSome = true := by
  have step (acc : Nat) (read : (bs.foldlM (fun value b => (hexValue b).map (value * 16 + ·)) acc).isSome = true) :
      ∀ b ∈ bs, (hexValue b).isSome = true := by
    clear digits
    induction bs generalizing acc with
    | nil => exact fun b member => by cases member
    | cons b bs ih =>
      rw [List.foldlM_cons] at read
      cases digit : hexValue b with
      | none =>
        rw [digit] at read
        cases read
      | some v =>
        rw [digit] at read
        exact List.forall_mem_cons.mpr ⟨by rw [digit]; rfl,ih _ read⟩
  exact step 0 (by rw [← hexDigits,digits]; rfl)

theorem unicode_of_hex {rest : Bytes} (long : 4 ≤ rest.length) (hex : ∀ b ∈ rest.take 4, (hexValue b).isSome = true) :
    ∃ a b c d, backslash :: lowerU :: rest = (Item.unicode a b c d).render ++ rest.drop 4 := by
  obtain - | ⟨w,- | ⟨x,- | ⟨y,- | ⟨z,rest⟩⟩⟩⟩ := rest
  iterate 4 exact absurd long (by simp)
  have digit (b : UInt8) (member : b ∈ [w,x,y,z]) : (hexValue b).isSome = true := hex b member
  exact ⟨⟨w,digit w (by simp)⟩,⟨x,digit x (by simp)⟩,⟨y,digit y (by simp)⟩,⟨z,digit z (by simp)⟩,rfl⟩

theorem unicode_of_decode {rest : Bytes} {code : Nat} (decoded : Direct.decodeHexU16 (rest.take 4) = some code) :
    ∃ a b c d, backslash :: lowerU :: rest = (Item.unicode a b c d).render ++ rest.drop 4 := by
  rw [Direct.decodeHexU16] at decoded
  split at decoded
  · next long =>
    rw [List.length_take] at long
    exact unicode_of_hex (by omega) (hex_of_digits decoded)
  · cases decoded

/-- The input is the rest of a string literal, up to its closing quote. -/
def Literal (input rest : Bytes) : Prop := ∃ items, input = renderItems items ++ quote :: rest

namespace Literal

variable {input rest : Bytes}

theorem close (rest : Bytes) : Literal (quote :: rest) rest := ⟨[],rfl⟩

theorem item (item : Item) (literal : Literal input rest) : Literal (item.render ++ input) rest := by
  obtain ⟨items,rfl⟩ := literal
  exact ⟨item :: items,by rw [renderItems_cons,List.append_assoc]⟩

theorem byte {b : UInt8} (plain : Plain b) (literal : Literal input rest) : Literal (b :: input) rest :=
  literal.item (.raw ⟨[b],by simp,by simpa using plain⟩)

theorem bytes {bs : Bytes} (plain : ∀ b ∈ bs, Plain b) (literal : Literal input rest) : Literal (bs ++ input) rest := by
  induction bs with
  | nil => exact literal
  | cons b bs ih =>
    obtain ⟨first,others⟩ := List.forall_mem_cons.mp plain
    exact (ih others).byte first

theorem escape {esc b : UInt8} (simple : simpleEscape esc = some b) (literal : Literal input rest) :
    Literal (backslash :: esc :: input) rest := by
  obtain ⟨e,rfl⟩ := Escape.of_simple simple
  exact literal.item (.escape e)

theorem string (literal : Literal input rest) : ∃ items, quote :: input = renderString items ++ rest := by
  obtain ⟨items,rfl⟩ := literal
  exact ⟨items,by rw [renderString,List.cons_append,List.append_assoc]; rfl⟩

end Literal

/-- A paired low surrogate is an escape of its own. -/
theorem unicode_of_paired {code low : Nat} {rest : Bytes} (paired : Direct.pairedLow code rest = some low) :
    ∃ a b c d, rest = (Item.unicode a b c d).render ++ rest.drop 6 := by
  rw [Direct.pairedLow] at paired
  split at paired
  · next shape =>
    obtain ⟨-,long,first,second⟩ := shape
    obtain - | ⟨x,- | ⟨y,tail⟩⟩ := rest
    · cases first
    · cases second
    · obtain rfl := Option.some.inj first
      obtain rfl := Option.some.inj second
      have decoded := (Option.filter_eq_some_iff.mp paired).1
      exact unicode_of_decode decoded
  · cases paired

theorem literal_of_slow {n : Nat} {result input s rest : Bytes}
    (parsed : Direct.parseStringBytesSlow n result input = some (s,rest)) : Literal input rest := by
  fun_induction Direct.parseStringBytesSlow n result input with
  | case1 | case2 | case4 | case6 | case9 | case10 => cases parsed
  | case3 =>
    cases parsed
    exact .close _
  | case5 _ _ _ _ _ simple _ ih => exact (ih parsed).escape simple
  | case7 _ _ text code decoded low paired _ _ ih =>
    obtain ⟨a,b,c,d,first⟩ := unicode_of_decode decoded
    obtain ⟨a',b',c',d',second⟩ := unicode_of_paired paired
    rw [List.drop_drop] at second
    rw [first,second]
    exact ((ih parsed).item _).item _
  | case8 _ _ text code decoded _ _ _ ih =>
    obtain ⟨a,b,c,d,shape⟩ := unicode_of_decode decoded
    rw [shape]
    exact (ih parsed).item _
  | case11 _ _ _ _ notQuote notBackslash printable ih => exact (ih parsed).byte ⟨notQuote,notBackslash,printable⟩

theorem string_of_parse {input s rest : Bytes} (parsed : Direct.parseStringBytes input = some (s,rest)) :
    ∃ items, input = renderString items ++ rest := by
  cases input with
  | nil => cases parsed
  | cons b input =>
    rw [Direct.parseStringBytes] at parsed
    split at parsed
    · next isQuote =>
      obtain rfl := isQuote
      have plain : ∀ b ∈ input.takeWhile (!Direct.isTerminator ·), Plain b := fun b member => by
        have kept := List.mem_takeWhile_imp member
        exact plain_iff.mpr (by simpa using kept)
      have split := List.takeWhile_append_dropWhile (p := (!Direct.isTerminator ·)) (l := input)
      apply Literal.string
      rw [← split]
      apply Literal.bytes plain
      split at parsed
      · cases parsed
      · next ch tail dropped =>
        rw [dropped] at split ⊢
        split at parsed
        · next closes =>
          cases parsed
          rw [closes]
          exact .close _
        · split at parsed
          · cases parsed
          · exact literal_of_slow parsed
    · cases parsed

theorem literal_of_skip {n : Nat} {input rest : Bytes} (skipped : Tape.skipString n input = some rest) :
    Literal input rest := by
  fun_induction Tape.skipString n input with
  | case1 | case2 | case4 | case7 | case8 | case9 => cases skipped
  | case3 =>
    cases skipped
    exact .close _
  | case5 _ _ _ simple _ ih =>
    obtain ⟨b,read⟩ := Option.isSome_iff_exists.mp simple
    exact (ih skipped).escape read
  | case6 _ text hex _ _ ih =>
    obtain ⟨a,b,c,d,shape⟩ := unicode_of_hex hex.1 (List.all_eq_true.mp hex.2)
    rw [shape]
    exact (ih skipped).item _
  | case10 _ _ _ notQuote notBackslash printable ih => exact (ih skipped).byte ⟨notQuote,notBackslash,printable⟩

end strings

section numbers

theorem Digit.of_isDigit {b : UInt8} (digit : isDigit b = true) : ∃ d : Digit, d.byte = b := by
  simp only [isDigit,decide_eq_true_eq,UInt8.le_iff_toNat_le] at digit
  obtain ⟨low,high⟩ := digit
  change 48 ≤ b.toNat at low
  change b.toNat ≤ 57 at high
  refine ⟨⟨b.toNat - 0x30,by omega⟩,?_⟩
  rw [Digit.byte,Nat.add_sub_cancel' low,UInt8.ofNat_toNat]

theorem digits_of_bytes {bs : Bytes} (digits : ∀ b ∈ bs, isDigit b = true) : ∃ ds, renderDigits ds = bs := by
  induction bs with
  | nil => exact ⟨[],rfl⟩
  | cons b bs ih =>
    obtain ⟨first,others⟩ := List.forall_mem_cons.mp digits
    obtain ⟨d,rfl⟩ := Digit.of_isDigit first
    obtain ⟨ds,rfl⟩ := ih others
    exact ⟨d :: ds,rfl⟩

theorem span_of_digits (input : Bytes) : ∃ ds, input = renderDigits ds ++ input.dropWhile isDigit ∧
    input.takeWhile isDigit = renderDigits ds := by
  obtain ⟨ds,same⟩ := digits_of_bytes fun b (member : b ∈ input.takeWhile isDigit) => List.mem_takeWhile_imp member
  exact ⟨ds,by rw [same,List.takeWhile_append_dropWhile],same.symm⟩

/-- At least one digit, as every digit run after a point or an exponent needs. -/
theorem span_of_digits_cons {input : Bytes} (some : (input.takeWhile isDigit).isEmpty = false) :
    ∃ d ds, input = renderDigits (d :: ds) ++ input.dropWhile isDigit := by
  obtain ⟨ds,split,taken⟩ := span_of_digits input
  cases ds with
  | nil =>
    rw [taken] at some
    cases some
  | cons d ds => exact ⟨d,ds,split⟩

/-- The input starts with an optional exponent. -/
def Scaled (input rest : Bytes) : Prop := input = rest ∨ ∃ e : Exponent, input = e.render ++ rest

theorem scaled_of_skip {input rest : Bytes} (skipped : skipExponent input = some rest) : Scaled input rest := by
  cases input with
  | nil =>
    cases skipped
    exact .inl rfl
  | cons b input =>
    rw [skipExponent] at skipped
    split at skipped
    · next marker =>
      have upper : ∃ upper : Bool, b = if upper then upperE else lowerE := by
        obtain rfl | rfl := marker
        exacts [⟨false,rfl⟩,⟨true,rfl⟩]
      obtain ⟨upper,rfl⟩ := upper
      dsimp only at skipped
      have sign : ∃ sign, input = renderSign sign ++
          if input.head? = some plus ∨ input.head? = some minus then input.tail else input := by
        split
        · next signed =>
          cases input with
          | nil => simp at signed
          | cons c input =>
            obtain same | same := signed <;> obtain rfl := Option.some.inj same
            exacts [⟨some false,rfl⟩,⟨some true,rfl⟩]
        · exact ⟨none,rfl⟩
      obtain ⟨sign,split⟩ := sign
      generalize (if input.head? = some plus ∨ input.head? = some minus then input.tail else input) = digits
        at skipped split
      split at skipped
      · cases skipped
      · next more =>
        obtain ⟨d,ds,spanned⟩ := span_of_digits_cons (Bool.eq_false_iff.mpr more)
        obtain rfl := Option.some.inj skipped
        refine .inr ⟨⟨upper,sign,d,ds⟩,?_⟩
        rw [split,Exponent.render,Exponent.digits,List.cons_append,List.append_assoc,← spanned]
    · cases skipped
      exact .inl rfl

/-- What follows the integer part of a number. -/
def Continued (input rest : Bytes) : Prop :=
  Scaled input rest ∨ ∃ d ds middle, input = dot :: (renderDigits (d :: ds) ++ middle) ∧ Scaled middle rest

theorem continued_of_point {input rest : Bytes} (point : input.head? = some dot)
    (digits : (input.tail.takeWhile isDigit).isEmpty = false) (scaled : Scaled (input.tail.dropWhile isDigit) rest) :
    Continued input rest := by
  cases input with
  | nil => cases point
  | cons b input =>
    obtain rfl := Option.some.inj point
    obtain ⟨d,ds,spanned⟩ := span_of_digits_cons digits
    exact .inr ⟨d,ds,_,congrArg _ spanned,scaled⟩

theorem numeral_of_continued {b : UInt8} {input more middle rest : Bytes} (negative : Bool) (digit : isDigit b = true)
    (split : input = (if negative then [minus] else []) ++ b :: (more ++ middle))
    (digits : ∀ b ∈ more, isDigit b = true) (canonical : b = 0x30 → more = []) (continued : Continued middle rest) :
    ∃ n : Numeral, input = n.render ++ rest := by
  obtain ⟨d,rfl⟩ := Digit.of_isDigit digit
  obtain ⟨ds,rfl⟩ := digits_of_bytes digits
  have alone : d = 0 → ds = [] := fun zero => List.map_eq_nil_iff.mp (canonical (d.facts.2.2.2.2.mpr zero))
  subst split
  obtain (rfl | ⟨e,rfl⟩) | ⟨f,fs,middle,rfl,rfl | ⟨e,rfl⟩⟩ := continued
  · exact ⟨⟨negative,d,ds,alone,none,none⟩,by simp [render_append,Numeral.integer,renderDigits_cons,Numeral.renderFraction,Numeral.renderExponent]⟩
  · exact ⟨⟨negative,d,ds,alone,none,some e⟩,by simp [render_append,Numeral.integer,renderDigits_cons,Numeral.renderFraction,Numeral.renderExponent]⟩
  · exact ⟨⟨negative,d,ds,alone,some (f,fs),none⟩,by simp [render_append,Numeral.integer,renderDigits_cons,Numeral.renderFraction,Numeral.renderExponent]⟩
  · exact ⟨⟨negative,d,ds,alone,some (f,fs),some e⟩,by simp [render_append,Numeral.integer,renderDigits_cons,Numeral.renderFraction,Numeral.renderExponent]⟩

theorem sign_split (input : Bytes) : input =
    (if decide (input.head? = some minus) then [minus] else []) ++ if input.head? = some minus then input.tail else input := by
  by_cases signed : input.head? = some minus
  · rw [if_pos (decide_eq_true signed),if_pos signed]
    cases input with
    | nil => cases signed
    | cons b input =>
      obtain rfl := Option.some.inj signed
      rfl
  · rw [if_neg (by simpa using signed),if_neg signed]
    rfl

/-- The digits after the first one; there are none after a zero. -/
theorem integer_split (b : UInt8) (tail : Bytes) :
    ∃ more, tail = more ++ (if b = 0x30 then tail else tail.dropWhile isDigit) ∧ (∀ b ∈ more, isDigit b = true) ∧
      (b = 0x30 → more = []) := by
  by_cases zero : b = 0x30
  · exact ⟨[],by rw [if_pos zero]; rfl,List.forall_mem_nil _,fun _ => rfl⟩
  · refine ⟨tail.takeWhile isDigit,?_,fun _ => List.mem_takeWhile_imp,fun same => absurd same zero⟩
    rw [if_neg zero,List.takeWhile_append_dropWhile]

theorem numeral_of_skip {input rest : Bytes} (skipped : Tape.skipNumber input = some rest) :
    ∃ n : Numeral, input = n.render ++ rest := by
  have sign := sign_split input
  rw [Tape.skipNumber] at skipped
  dsimp only at skipped
  generalize (if input.head? = some minus then input.tail else input) = body at skipped sign
  split at skipped
  · cases skipped
  · next b tail =>
    split at skipped
    · next first =>
      have digit : isDigit b = true := by
        obtain rfl | digit := first
        exacts [rfl,digit]
      obtain ⟨more,split,digits,canonical⟩ := integer_split b tail
      generalize (if b = 0x30 then tail else tail.dropWhile isDigit) = middle at skipped split
      subst split
      refine numeral_of_continued _ digit sign digits canonical ?_
      split at skipped
      · next point =>
        split at skipped
        · cases skipped
        · next some => exact continued_of_point point (Bool.eq_false_iff.mpr some) (scaled_of_skip skipped)
      · exact .inl (scaled_of_skip skipped)
    · cases skipped

section direct

variable {F : Type} {doubles : Doubles F} {x : F} {input rest : Bytes}

theorem scaled_of_general {middle : Bytes} (parsed : Direct.parseGeneral doubles input middle = some (x,rest)) :
    Scaled middle rest := by
  rw [Direct.parseGeneral] at parsed
  obtain ⟨after,skipped,parsed⟩ := Option.bind_eq_some_iff.mp parsed
  obtain ⟨y,-,parsed⟩ := Option.bind_eq_some_iff.mp parsed
  cases parsed
  exact scaled_of_skip skipped

theorem continued_of_after {negative : Bool} {int middle : Bytes}
    (parsed : Direct.parseAfterInteger doubles input negative int middle = some (x,rest)) : Continued middle rest := by
  rw [Direct.parseAfterInteger] at parsed
  split at parsed
  · next point =>
    dsimp only at parsed
    split at parsed
    · cases parsed
    · next some =>
      refine continued_of_point point (Bool.eq_false_iff.mpr some) ?_
      split at parsed
      · cases parsed
        exact .inl rfl
      · exact scaled_of_general parsed
  · left
    split at parsed
    · cases parsed
      exact .inl rfl
    · exact scaled_of_general parsed

theorem numeral_of_parse (parsed : Direct.parseNumber doubles input = some (x,rest)) :
    ∃ n : Numeral, input = n.render ++ rest := by
  have sign := sign_split input
  rw [Direct.parseNumber] at parsed
  generalize (if input.head? = some minus then input.tail else input) = body at parsed sign
  split at parsed
  · cases parsed
  · next b tail =>
    obtain ⟨more,split,digits,canonical⟩ := integer_split b tail
    have continued (digit : isDigit b = true) (continued : Continued (if b = 0x30 then tail else tail.dropWhile isDigit) rest) :
        ∃ n : Numeral, input = n.render ++ rest := by
      rw [split] at sign
      exact numeral_of_continued _ digit sign digits canonical continued
    split at parsed
    · next zero =>
      split at parsed
      · cases parsed
      · rw [if_pos zero] at continued
        exact continued (by rw [zero]; rfl) (continued_of_after parsed)
    · next zero =>
      split at parsed
      · next digit =>
        rw [if_neg zero] at continued
        rw [List.dropWhile_cons_of_pos digit] at parsed
        exact continued digit (continued_of_after parsed)
      · cases parsed

end direct

end numbers

section direct

open Direct

variable {F : Type} {doubles : Doubles F} {value : Value Bytes F} {input rest : Bytes}

theorem of_literal {word : Bytes} {v : Value Bytes F} (read : literal word v input = some (value,rest)) :
    input = word ++ rest := by
  rw [literal] at read
  split at read
  · next same =>
    obtain ⟨-,rfl⟩ := Prod.mk.inj (Option.some.inj read)
    have whole := List.take_append_drop word.length input
    rw [same] at whole
    exact whole.symm
  · cases read

theorem of_expect {ch : UInt8} (read : expect ch input = some rest) : ∃ gap, input = renderGap gap ++ ch :: rest := by
  obtain ⟨gap,split⟩ := split_gap input
  rw [expect] at read
  split at read
  · cases read
  · next b tail skipped =>
    split at read
    · next same =>
      cases read
      exact ⟨gap,by rw [split,skipped,same]⟩
    · cases read

mutual

theorem doc_of_parse (n : Nat) {input rest : Bytes} {value : Value Bytes F}
    (parsed : parseValue doubles n input = some (value,rest)) :
    ∃ gap d, input = renderGap gap ++ (Doc.render d ++ rest) := by
  cases n with
  | zero =>
    rw [parseValue] at parsed
    cases parsed
  | succ n =>
    obtain ⟨gap,split⟩ := split_gap input
    rw [parseValue] at parsed
    refine ⟨gap,?_⟩
    split at parsed
    · cases parsed
    · next b tail skipped =>
      rw [skipped] at split
      suffices ∃ d : Doc, b :: tail = d.render ++ rest by
        obtain ⟨d,rendered⟩ := this
        exact ⟨d,by rw [split,rendered]⟩
      clear split skipped
      split at parsed
      · obtain ⟨⟨s,after⟩,read,same⟩ := Option.map_eq_some_iff.mp parsed
        cases same
        obtain ⟨items,shape⟩ := string_of_parse read
        exact ⟨.string items,shape⟩
      split at parsed
      · next opens =>
        obtain rfl := opens
        split at parsed
        · cases parsed
        · next c more skipped =>
          split at parsed
          · next closes =>
            obtain ⟨inner,split⟩ := split_gap tail
            cases parsed
            rw [skipped,closes] at split
            exact ⟨.emptyObject inner,by rw [split]; simp [Doc.render]⟩
          · rw [← skipped,parseMembers_skip] at parsed
            obtain ⟨ms,shape⟩ := members_of_parse n [] parsed
            exact ⟨.object ms,by rw [shape]; simp [Doc.render]⟩
      split at parsed
      · next opens =>
        obtain rfl := opens
        split at parsed
        · cases parsed
        · next c more skipped =>
          split at parsed
          · next closes =>
            obtain ⟨inner,split⟩ := split_gap tail
            cases parsed
            rw [skipped,closes] at split
            exact ⟨.emptyArray inner,by rw [split]; simp [Doc.render]⟩
          · rw [← skipped,parseElements_skip] at parsed
            obtain ⟨es,shape⟩ := elements_of_parse n [] parsed
            exact ⟨.array es,by rw [shape]; simp [Doc.render]⟩
      split at parsed
      · exact ⟨.bool true,of_literal parsed⟩
      split at parsed
      · exact ⟨.bool false,of_literal parsed⟩
      split at parsed
      · exact ⟨.null,of_literal parsed⟩
      split at parsed
      · obtain ⟨⟨x,after⟩,read,same⟩ := Option.map_eq_some_iff.mp parsed
        cases same
        obtain ⟨m,shape⟩ := numeral_of_parse read
        exact ⟨.number m,shape⟩
      · cases parsed

theorem elements_of_parse (n : Nat) (values : List (Value Bytes F)) {input rest : Bytes} {value : Value Bytes F}
    (parsed : parseElements doubles n values input = some (value,rest)) :
    ∃ es, input = Elements.render es ++ closeBracket :: rest := by
  cases n with
  | zero =>
    rw [parseElements] at parsed
    cases parsed
  | succ n =>
    rw [parseElements] at parsed
    obtain ⟨⟨v,after⟩,first,parsed⟩ := Option.bind_eq_some_iff.mp parsed
    obtain ⟨before,d,shape⟩ := doc_of_parse n first
    obtain ⟨close,split⟩ := split_gap after
    dsimp only at parsed
    split at parsed
    · cases parsed
    · next b tail skipped =>
      rw [skipped] at split
      split at parsed
      · next same =>
        obtain ⟨es,more⟩ := elements_of_parse n _ parsed
        exact ⟨.cons before d close es,by rw [shape,split,same,more]; simp [Elements.render]⟩
      · split at parsed
        · next same =>
          cases parsed
          exact ⟨.last before d close,by rw [shape,split,same]; simp [Elements.render]⟩
        · cases parsed

theorem members_of_parse (n : Nat) (fields : List (Field Bytes F)) {input rest : Bytes} {value : Value Bytes F}
    (parsed : parseMembers doubles n fields input = some (value,rest)) :
    ∃ ms, input = Members.render ms ++ closeBrace :: rest := by
  cases n with
  | zero =>
    rw [parseMembers] at parsed
    cases parsed
  | succ n =>
    rw [parseMembers] at parsed
    obtain ⟨⟨key,after⟩,named,parsed⟩ := Option.bind_eq_some_iff.mp parsed
    obtain ⟨next,colon,parsed⟩ := Option.bind_eq_some_iff.mp parsed
    obtain ⟨⟨v,after⟩,first,parsed⟩ := Option.bind_eq_some_iff.mp parsed
    obtain ⟨before,split⟩ := split_gap input
    obtain ⟨key,name⟩ := string_of_parse named
    obtain ⟨mid,pointed⟩ := of_expect colon
    obtain ⟨inner,d,shape⟩ := doc_of_parse n first
    obtain ⟨close,closing⟩ := split_gap after
    dsimp only at parsed
    split at parsed
    · cases parsed
    · next b tail skipped =>
      rw [skipped] at closing
      split at parsed
      · next same =>
        obtain ⟨ms,more⟩ := members_of_parse n _ parsed
        exact ⟨.cons before key mid inner d close ms,by
          rw [split,name,pointed,shape,closing,same,more]; simp [Members.render]⟩
      · split at parsed
        · next same =>
          cases parsed
          exact ⟨.last before key mid inner d close,by rw [split,name,pointed,shape,closing,same]; simp [Members.render]⟩
        · cases parsed

end

/-- The direct parser accepts texts only, with any fuel. -/
theorem text_of_parse (n : Nat) (parsed : parseValue doubles n input = some (value,rest)) (blank : skipWhitespace rest = []) :
    ∃ t : Text, t.render = input := by
  obtain ⟨before,d,shape⟩ := doc_of_parse n parsed
  obtain ⟨after,split⟩ := split_gap rest
  rw [blank,List.append_nil] at split
  exact ⟨⟨before,d,after⟩,by rw [shape,split,Text.render,List.append_assoc]⟩

end direct

section tape

open Tape

/-- An open container. -/
inductive Frame where
  | array | object

namespace Frame

def start : Frame → Kind
  | .array => .arrStart
  | .object => .objStart

def closer : Frame → UInt8
  | .array => closeBracket
  | .object => closeBrace

/-- What may stand inside. -/
def Contents (inner : Bytes) : Frame → Prop
  | .array => ∃ es : Elements, inner = es.render
  | .object => ∃ ms : Members, inner = ms.render

/-- What stands before each value inside. -/
def Lead (lead : Bytes) : Frame → Prop
  | .array => lead = []
  | .object => ∃ before key mid, lead = renderGap before ++ renderString key ++ renderGap mid ++ [colon]

end Frame

theorem Elements.pad (gap : Gap) (es : Elements) : ∃ es' : Elements, es'.render = renderGap gap ++ es.render := by
  cases es with
  | last before d after => exact ⟨.last (gap ++ before) d after,by simp [Elements.render,renderGap]⟩
  | cons before d after rest => exact ⟨.cons (gap ++ before) d after rest,by simp [Elements.render,renderGap]⟩

theorem Members.pad (gap : Gap) (ms : Members) : ∃ ms' : Members, ms'.render = renderGap gap ++ ms.render := by
  cases ms with
  | last before key mid after d close =>
    exact ⟨.last (gap ++ before) key mid after d close,by simp [Members.render,renderGap]⟩
  | cons before key mid after d close rest =>
    exact ⟨.cons (gap ++ before) key mid after d close rest,by simp [Members.render,renderGap]⟩

/-- What the open containers still demand of the input behind a value. -/
def Closes : List Frame → Bytes → Prop
  | [],rest => skipWhitespace rest = []
  | frame :: frames,rest => ∃ gap after, Closes frames after ∧
      (rest = renderGap gap ++ frame.closer :: after ∨
        ∃ inner, frame.Contents inner ∧ rest = renderGap gap ++ comma :: (inner ++ frame.closer :: after))

/-- A value and what follows it, up to the end of its container. -/
theorem Closes.contents {frame : Frame} {frames : List Frame} {lead rest : Bytes} (leads : frame.Lead lead)
    (before : Gap) (d : Doc) (closes : Closes (frame :: frames) rest) :
    ∃ inner after, frame.Contents inner ∧ Closes frames after ∧
      lead ++ (renderGap before ++ (d.render ++ rest)) = inner ++ frame.closer :: after := by
  obtain ⟨close,after,outer,ends⟩ := closes
  cases frame with
  | array =>
    obtain rfl := leads
    obtain rfl | ⟨inner,⟨es,rfl⟩,rfl⟩ := ends
    · exact ⟨_,after,⟨.last before d close,rfl⟩,outer,by simp [Elements.render]⟩
    · exact ⟨_,after,⟨.cons before d close es,rfl⟩,outer,by simp [Elements.render]⟩
  | object =>
    obtain ⟨first,key,mid,rfl⟩ := leads
    obtain rfl | ⟨inner,⟨ms,rfl⟩,rfl⟩ := ends
    · exact ⟨_,after,⟨.last first key mid before d close,rfl⟩,outer,by simp [Members.render]⟩
    · exact ⟨_,after,⟨.cons first key mid before d close ms,rfl⟩,outer,by simp [Members.render]⟩

/-- The open containers are the starts that the stack points to. -/
def Frames (entries : List TapeEntry) : List Nat → List Frame → Prop :=
  List.Forall₂ fun idx frame => (entries.map TapeEntry.kind)[idx]? = some frame.start

variable {size : Nat} {entries : List TapeEntry} {stack : List Nat} {frames : List Frame}

theorem Frames.append (open_ : Frames entries stack frames) (more : List TapeEntry) : Frames (entries ++ more) stack frames := by
  refine open_.imp fun idx frame kind => ?_
  rw [List.map_append,List.getElem?_append_left]
  · exact kind
  · exact (List.getElem?_eq_some_iff.mp kind).1

theorem kinds_modify (idx : Nat) (f : TapeEntry → TapeEntry) (same : ∀ e, (f e).kind = e.kind) (entries : List TapeEntry) :
    (entries.modify idx f).map TapeEntry.kind = entries.map TapeEntry.kind := by
  induction entries generalizing idx with
  | nil => cases idx <;> rfl
  | cons e entries ih =>
    cases idx with
    | zero => rw [List.modify_zero_cons,List.map_cons,List.map_cons,same]
    | succ idx => rw [List.modify_succ_cons,List.map_cons,List.map_cons,ih]

/-- A run that `build_tape` takes for success. -/
def Accepted (size n : Nat) (s : Builder) : Prop :=
  ∃ s', run size n s = some s' ∧ skipWhitespace s'.rest = [] ∧ s'.stack = [] ∧ s'.entries ≠ []

theorem accepted_blank {n : Nat} (accepted : Accepted size n ⟨.afterValue,[],entries,input⟩) : skipWhitespace input = [] := by
  obtain ⟨s,ran,blank,-⟩ := accepted
  cases n with
  | zero =>
    rw [run] at ran
    cases ran
  | succ n =>
    rw [run] at ran
    dsimp only at ran
    split at ran
    · assumption
    · next c tail skipped =>
      cases ran
      rw [← skipWhitespace_skip,skipped]
      exact blank

theorem accepted_value {n : Nat} (start : stack = [] → entries = []) (accepted : Accepted size n ⟨.value,stack,entries,input⟩) :
    ∃ m gap c tail s, n = m + 1 ∧ input = renderGap gap ++ c :: tail ∧
      stepValue size ⟨.value,stack,entries,c :: tail⟩ c tail = some s ∧ Accepted size m s := by
  obtain ⟨s,ran,blank,closed,some⟩ := accepted
  obtain ⟨gap,split⟩ := split_gap input
  cases n with
  | zero =>
    rw [run] at ran
    cases ran
  | succ n =>
    rw [run] at ran
    dsimp only at ran
    split at ran
    · cases ran
      exact absurd (start closed) some
    · next c tail skipped =>
      obtain ⟨s',step,ran⟩ := Option.bind_eq_some_iff.mp ran
      rw [skipped] at split
      exact ⟨n,gap,c,tail,s',rfl,split,step,s,ran,blank,closed,some⟩

theorem accepted_after {n top : Nat} (accepted : Accepted size n ⟨.afterValue,top :: stack,entries,input⟩) :
    ∃ m gap c tail s, n = m + 1 ∧ input = renderGap gap ++ c :: tail ∧
      stepAfter size ⟨.afterValue,top :: stack,entries,c :: tail⟩ top c tail = some s ∧ Accepted size m s := by
  obtain ⟨s,ran,blank,closed,some⟩ := accepted
  obtain ⟨gap,split⟩ := split_gap input
  cases n with
  | zero =>
    rw [run] at ran
    cases ran
  | succ n =>
    rw [run] at ran
    dsimp only at ran
    split at ran
    · cases ran
      cases closed
    · next c tail skipped =>
      obtain ⟨s',step,ran⟩ := Option.bind_eq_some_iff.mp ran
      rw [skipped] at split
      exact ⟨n,gap,c,tail,s',rfl,split,step,s,ran,blank,closed,some⟩

/-- Closing the innermost container keeps the others open. -/
theorem of_close {s : Builder} {idx : Nat} {kind : Kind} {input after : Bytes} {state : State}
    (open_ : Frames entries stack frames)
    (closed : closeContainer size ⟨state,idx :: stack,entries,input⟩ kind after = some s) :
    ∃ entries', s = ⟨.afterValue,stack,entries',after⟩ ∧ Frames entries' stack frames ∧
      entries'.length = entries.length + 1 := by
  cases closed
  refine ⟨_,rfl,?_,by rw [List.length_modify,List.length_append,List.length_singleton]⟩
  have kept := open_.append [⟨position size input,kind,idx⟩]
  rw [Frames] at kept ⊢
  rwa [kinds_modify]
  exact fun _ => rfl

theorem of_readKey {s s' : Builder} (read : readKey size s = some s') :
    ∃ key mid entry, s.rest = renderString key ++ (renderGap mid ++ colon :: s'.rest) ∧
      s' = ⟨.value,s.stack,s.entries ++ [entry],s'.rest⟩ := by
  rw [readKey] at read
  split at read
  · cases read
  · next b tail shape =>
    split at read
    · next same =>
      obtain ⟨after,skipped,read⟩ := Option.bind_eq_some_iff.mp read
      obtain ⟨rest,pointed,read⟩ := Option.bind_eq_some_iff.mp read
      obtain ⟨mid,split⟩ := of_expect pointed
      obtain ⟨key,name⟩ := (literal_of_skip skipped).string
      cases read
      exact ⟨key,mid,_,by rw [shape,same,name,split],rfl⟩
    · cases read

theorem Frames.push (open_ : Frames entries stack frames) (frame : Frame) (pos : Nat) :
    Frames (entries ++ [⟨pos,frame.start,0⟩]) (entries.length :: stack) (frame :: frames) := by
  refine .cons ?_ (open_.append _)
  simp

/-- A value, and behind it what the open containers demand. -/
def Valued (frames : List Frame) (input : Bytes) : Prop :=
  ∃ gap d rest, input = renderGap gap ++ (Doc.render d ++ rest) ∧ Closes frames rest

/-- Every accepted run of that fuel leaves a derivation of its input behind. -/
structure Sound (size n : Nat) : Prop where
  after : ∀ {stack entries frames input}, Frames entries stack frames → entries.length + input.length ≤ size →
    Accepted size n ⟨.afterValue,stack,entries,input⟩ → Closes frames input
  value : ∀ {stack entries frames input}, Frames entries stack frames → entries.length + input.length ≤ size →
    (stack = [] → entries = []) → Accepted size n ⟨.value,stack,entries,input⟩ → Valued frames input

variable {n : Nat}

theorem Sound.contents (sound : Sound size n) (frame : Frame) {idx : Nat} {lead input : Bytes} (leads : frame.Lead lead)
    (open_ : Frames entries (idx :: stack) (frame :: frames)) (room : entries.length + input.length ≤ size)
    (accepted : Accepted size n ⟨.value,idx :: stack,entries,input⟩) :
    ∃ inner after, frame.Contents inner ∧ Closes frames after ∧ lead ++ input = inner ++ frame.closer :: after := by
  obtain ⟨gap,d,rest,rfl,closes⟩ := sound.value open_ room (fun empty => by cases empty) accepted
  exact closes.contents leads gap d

/-- A key, its value and what follows, up to the end of the object. -/
theorem Sound.members (sound : Sound size n) {idx : Nat} {s s' : Builder} (stacked : s.stack = idx :: stack)
    (open_ : Frames s.entries s.stack (.object :: frames)) (room : s.entries.length + s.rest.length ≤ size)
    (read : readKey size s = some s') (accepted : Accepted size n s') :
    ∃ (ms : Members) (after : Bytes), Closes frames after ∧ s.rest = ms.render ++ closeBrace :: after := by
  obtain ⟨key,mid,entry,shape,after⟩ := of_readKey read
  rw [after,stacked] at accepted
  rw [stacked] at open_
  obtain ⟨inner,after,⟨ms,rfl⟩,closes,whole⟩ := sound.contents .object ⟨[],key,mid,rfl⟩ (open_.append [entry]) (by
      rw [shape] at room
      simp only [List.length_append,List.length_cons,List.length_nil] at room ⊢
      omega) accepted
  refine ⟨ms,after,closes,?_⟩
  rw [shape,← Frame.closer,← whole]
  simp [renderGap]

theorem Sound.leaf (sound : Sound size n) (open_ : Frames entries stack frames) {input rest : Bytes}
    (room : entries.length + input.length ≤ size) (d : Doc) (shape : input = d.render ++ rest) (kind : Kind)
    (accepted : Accepted size n (leaf size ⟨.value,stack,entries,input⟩ kind rest)) :
    ∃ d rest, input = Doc.render d ++ rest ∧ Closes frames rest := by
  refine ⟨d,rest,shape,sound.after (open_.append _) ?_ accepted⟩
  obtain ⟨b,bs,rendered,-⟩ := d.render_cons
  rw [shape,rendered] at room
  simp only [List.length_append,List.length_cons,List.length_nil] at room ⊢
  omega

theorem Sound.word (sound : Sound size n) (open_ : Frames entries stack frames) {input : Bytes} {s : Builder}
    (room : entries.length + input.length ≤ size) (d : Doc) (kind : Kind)
    (read : word size ⟨.value,stack,entries,input⟩ d.render kind = some s) (accepted : Accepted size n s) :
    ∃ d rest, input = Doc.render d ++ rest ∧ Closes frames rest := by
  rw [Tape.word] at read
  split at read
  · next same =>
    cases read
    have whole := List.take_append_drop d.render.length input
    rw [same] at whole
    exact sound.leaf open_ room d whole.symm kind accepted
  · cases read

theorem Sound.closed (sound : Sound size n) (open_ : Frames entries stack frames) {state : State} {start : TapeEntry}
    {input after : Bytes} {kind : Kind} {s : Builder} (room : entries.length + 2 + after.length ≤ size)
    (step : closeContainer size ⟨state,entries.length :: stack,entries ++ [start],input⟩ kind after = some s)
    (accepted : Accepted size n s) : Closes frames after := by
  obtain ⟨entries',rfl,others,length⟩ := of_close (open_.append [start]) step
  rw [List.length_append,List.length_singleton] at length
  exact sound.after others (by omega) accepted

theorem Sound.step_value (sound : Sound size n) (small : size < 2 ^ 32) (open_ : Frames entries stack frames) {c : UInt8}
    {tail : Bytes} {s : Builder} (room : entries.length + (c :: tail).length ≤ size)
    (step : stepValue size ⟨.value,stack,entries,c :: tail⟩ c tail = some s) (accepted : Accepted size n s) :
    ∃ d rest, c :: tail = Doc.render d ++ rest ∧ Closes frames rest := by
  obtain ⟨gap,split⟩ := split_gap tail
  have shorter : (skipWhitespace tail).length ≤ tail.length := skipWhitespace_length_le tail
  have spare : entries.length + 1 + (skipWhitespace tail).length ≤ size := by
    rw [List.length_cons] at room
    omega
  have index : asU32 entries.length = entries.length := Nat.mod_eq_of_lt (by omega)
  have opened (kind : Kind) : openContainer size ⟨.value,stack,entries,c :: tail⟩ kind (skipWhitespace tail) =
      ⟨.value,entries.length :: stack,entries ++ [⟨position size (c :: tail),kind,0⟩],skipWhitespace tail⟩ := by
    rw [openContainer,index]
  have within (entry : TapeEntry) : (entries ++ [entry]).length + (skipWhitespace tail).length ≤ size := by
    rwa [List.length_append,List.length_singleton]
  rw [stepValue,opened,opened] at step
  dsimp only at step
  split at step
  · next opens =>
    obtain rfl := opens
    split at step
    · next closes =>
      obtain ⟨after,same⟩ := List.head?_eq_some_iff.mp closes
      rw [same] at step split spare
      rw [List.length_cons] at spare
      exact ⟨.emptyObject gap,after,by rw [split]; simp [Doc.render],sound.closed open_ (by omega) step accepted⟩
    · obtain ⟨ms,after,closes,shape⟩ := sound.members rfl (open_.push .object _) (within _) step accepted
      obtain ⟨padded,pad⟩ := ms.pad gap
      refine ⟨.object padded,after,?_,closes⟩
      rw [split,show skipWhitespace tail = _ from shape,Doc.render,pad]
      simp
  split at step
  · next opens =>
    obtain rfl := opens
    split at step
    · next closes =>
      obtain ⟨after,same⟩ := List.head?_eq_some_iff.mp closes
      rw [same] at step split spare
      rw [List.length_cons] at spare
      exact ⟨.emptyArray gap,after,by rw [split]; simp [Doc.render],sound.closed open_ (by omega) step accepted⟩
    · cases step
      obtain ⟨inner,after,⟨es,rfl⟩,closes,shape⟩ :=
        sound.contents .array rfl (open_.push .array _) (within _) accepted
      obtain ⟨padded,pad⟩ := es.pad gap
      refine ⟨.array padded,after,?_,closes⟩
      rw [List.nil_append] at shape
      rw [split,shape,Doc.render,pad]
      simp [Frame.closer]
  split at step
  · obtain ⟨after,skipped,rfl⟩ := Option.map_eq_some_iff.mp step
    next opens =>
    obtain rfl := opens
    obtain ⟨items,shape⟩ := (literal_of_skip skipped).string
    exact sound.leaf open_ room (.string items) shape .string accepted
  split at step
  · exact sound.word open_ room (.bool true) .true step accepted
  split at step
  · exact sound.word open_ room (.bool false) .false step accepted
  split at step
  · exact sound.word open_ room .null .null step accepted
  split at step
  · obtain ⟨after,skipped,rfl⟩ := Option.map_eq_some_iff.mp step
    obtain ⟨m,shape⟩ := numeral_of_skip skipped
    exact sound.leaf open_ room (.number m) shape .number accepted
  · cases step

theorem Sound.step_after (sound : Sound size n) {idx : Nat} {frame : Frame} (open_ : Frames entries (idx :: stack) (frame :: frames))
    {c : UInt8} {tail : Bytes} {s : Builder} (room : entries.length + (c :: tail).length ≤ size)
    (step : stepAfter size ⟨.afterValue,idx :: stack,entries,c :: tail⟩ idx c tail = some s) (accepted : Accepted size n s) :
    ∃ after, Closes frames after ∧ (c :: tail = frame.closer :: after ∨
      ∃ inner, frame.Contents inner ∧ c :: tail = comma :: (inner ++ frame.closer :: after)) := by
  rw [List.length_cons] at room
  obtain - | ⟨kind,outer⟩ := open_
  rw [List.getElem?_map] at kind
  rw [stepAfter] at step
  dsimp only at step
  rw [kind] at step
  have closing {kind : Kind} {state : State} (step : closeContainer size ⟨state,idx :: stack,entries,c :: tail⟩ kind tail = some s) :
      Closes frames tail := by
    obtain ⟨entries',rfl,others,length⟩ := of_close outer step
    exact sound.after others (by omega) accepted
  split at step
  · next separates =>
    obtain rfl := separates
    cases frame with
    | array =>
      rw [if_neg (by decide)] at step
      cases step
      obtain ⟨inner,after,contents,closes,shape⟩ := sound.contents .array rfl
        (.cons (by rwa [List.getElem?_map]) outer) (by omega) accepted
      exact ⟨after,closes,.inr ⟨inner,contents,congrArg _ shape⟩⟩
    | object =>
      rw [if_pos (by decide)] at step
      have shorter : (skipWhitespace tail).length ≤ tail.length := skipWhitespace_length_le tail
      obtain ⟨gap,split⟩ := split_gap tail
      have here : Frames entries (idx :: stack) (.object :: frames) := .cons (by rwa [List.getElem?_map]) outer
      obtain ⟨ms,after,closes,shape⟩ := sound.members (s := ⟨.afterValue,idx :: stack,entries,skipWhitespace tail⟩) rfl here
        (show entries.length + (skipWhitespace tail).length ≤ size by omega) step accepted
      obtain ⟨padded,pad⟩ := ms.pad gap
      refine ⟨after,closes,.inr ⟨_,⟨padded,rfl⟩,?_⟩⟩
      rw [split,show skipWhitespace tail = _ from shape,pad,List.append_assoc]
      rfl
  split at step
  · next closes =>
    obtain ⟨rfl,same⟩ := closes
    cases frame with
    | array => cases same
    | object => exact ⟨tail,closing step,.inl rfl⟩
  split at step
  · next closes =>
    obtain ⟨rfl,same⟩ := closes
    cases frame with
    | array => exact ⟨tail,closing step,.inl rfl⟩
    | object => cases same
  · cases step

theorem sound (small : size < 2 ^ 32) (n : Nat) : Sound size n := by
  induction n with
  | zero =>
    have none {s : Builder} (accepted : Accepted size 0 s) : False := by
      obtain ⟨s',ran,-⟩ := accepted
      rw [run] at ran
      cases ran
    exact ⟨fun _ _ accepted => (none accepted).elim,fun _ _ _ accepted => (none accepted).elim⟩
  | succ n ih =>
    constructor
    · intro stack entries frames input open_ room accepted
      cases open_ with
      | nil => exact accepted_blank accepted
      | cons kind outer =>
        obtain ⟨m,gap,c,tail,s,fuel,rfl,step,accepted⟩ := accepted_after accepted
        obtain rfl := Nat.succ.inj fuel
        rw [List.length_append] at room
        obtain ⟨after,closes,ends⟩ := ih.step_after (.cons kind outer) (by omega) step accepted
        refine ⟨gap,after,closes,?_⟩
        obtain same | ⟨inner,contents,same⟩ := ends
        · exact .inl (by rw [same])
        · exact .inr ⟨inner,contents,by rw [same]⟩
    · intro stack entries frames input open_ room start accepted
      obtain ⟨m,gap,c,tail,s,fuel,rfl,step,accepted⟩ := accepted_value start accepted
      obtain rfl := Nat.succ.inj fuel
      rw [List.length_append] at room
      obtain ⟨d,rest,shape,closes⟩ := ih.step_value small open_ (by omega) step accepted
      exact ⟨gap,d,rest,by rw [shape],closes⟩

theorem text_of_tape {bytes : Bytes} {tape : List TapeEntry} (small : bytes.length < 2 ^ 32)
    (built : buildTape bytes = some tape) : ∃ t : Text, t.render = bytes := by
  rw [buildTape] at built
  obtain ⟨s,ran,built⟩ := Option.bind_eq_some_iff.mp built
  split at built
  · next done =>
    obtain ⟨blank,closed,some⟩ := done
    have accepted : Accepted bytes.length (bytes.length + 1) ⟨.value,[],[],bytes⟩ :=
      ⟨s,ran,List.isEmpty_iff.mp blank,List.isEmpty_iff.mp closed,by simpa using some⟩
    obtain ⟨before,d,rest,shape,blank⟩ := (sound small _).value .nil (by simp) (fun _ => rfl) accepted
    obtain ⟨after,split⟩ := split_gap rest
    rw [show skipWhitespace rest = [] from blank,List.append_nil] at split
    exact ⟨⟨before,d,after⟩,by rw [shape,split,Text.render,List.append_assoc]⟩
  · cases built

end tape

section acceptance

open Tape

variable {F : Type} (doubles : Doubles F)

theorem parse_isSome_iff (bytes : Bytes) : (Direct.parse doubles bytes).isSome = true ↔ ∃ t : Text, t.render = bytes := by
  constructor
  · intro parsed
    obtain ⟨value,parsed⟩ := Option.isSome_iff_exists.mp parsed
    obtain ⟨⟨v,rest⟩,root,parsed⟩ := Option.bind_eq_some_iff.mp parsed
    dsimp only at parsed
    split at parsed
    · next blank => exact text_of_parse _ root (List.isEmpty_iff.mp blank)
    · cases parsed
  · rintro ⟨t,rfl⟩
    rw [parse_render]
    rfl

theorem buildTape_isSome_iff {bytes : Bytes} (small : bytes.length < 2 ^ 32) :
    (buildTape bytes).isSome = true ↔ ∃ t : Text, t.render = bytes := by
  constructor
  · intro built
    obtain ⟨tape,built⟩ := Option.isSome_iff_exists.mp built
    exact text_of_tape small built
  · rintro ⟨t,rfl⟩
    rw [buildTape_render t small]
    rfl

/-- Both front ends accept the texts of the grammar and nothing else. -/
theorem accepts_iff_text {bytes : Bytes} (small : bytes.length < 2 ^ 32) :
    ((Direct.parse doubles bytes).isSome = true ↔ (buildTape bytes).isSome = true) ∧
      ((Direct.parse doubles bytes).isSome = true ↔ ∃ t : Text, t.render = bytes) := by
  have direct := parse_isSome_iff doubles bytes
  exact ⟨direct.trans (buildTape_isSome_iff small).symm,direct⟩

theorem leadingZero_rejected : (Direct.parse rationals [0x30,0x31]).isSome = false ∧ (buildTape [0x30,0x31]).isSome = false ∧
    ¬∃ t : Text, t.render = [0x30,0x31] := by
  obtain ⟨same,texts⟩ := accepts_iff_text rationals (show [0x30,0x31].length < 2 ^ 32 by decide)
  have rejected : (Direct.parse rationals [0x30,0x31]).isSome = false := rfl
  rw [rejected,Bool.false_eq_true,false_iff] at same texts
  exact ⟨rejected,Bool.eq_false_iff.mpr same,texts⟩

end acceptance

end Perry.Json
