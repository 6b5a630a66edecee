import Perry.Json.Literals
import Perry.Json.Numerals

/-! `DirectParser`: recursive descent over the input, building values as it goes. A
failure anywhere makes the whole parse fail, so it is `none` here. -/
namespace Perry.Json

open Perry.Unicode

namespace Direct

variable {F : Type} (doubles : Doubles F)

/-- A fixed word. -/
def literal (word : Bytes) (value : Value Bytes F) (input : Bytes) : Option (Value Bytes F × Bytes) :=
  if input.take word.length = word then some (value,input.drop word.length) else none

def expect (ch : UInt8) (input : Bytes) : Option Bytes :=
  match skipWhitespace input with
  | [] => none
  | b :: rest => if b = ch then some rest else none

mutual

def parseValue : Nat → Bytes → Option (Value Bytes F × Bytes)
  | 0,_ => none
  | n + 1,input =>
    match skipWhitespace input with
    | [] => none
    | b :: rest =>
      if b = quote then (parseStringBytes (b :: rest)).map fun (s,rest) => (.string s,rest)
      else if b = openBrace then
        match skipWhitespace rest with
        | [] => none
        | c :: tail => if c = closeBrace then some (.object [],tail) else parseMembers n [] (c :: tail)
      else if b = openBracket then
        match skipWhitespace rest with
        | [] => none
        | c :: tail => if c = closeBracket then some (.array [],tail) else parseElements n [] (c :: tail)
      else if b = lowerT then literal trueBytes (.bool true) (b :: rest)
      else if b = lowerF then literal falseBytes (.bool false) (b :: rest)
      else if b = lowerN then literal nullBytes .null (b :: rest)
      else if b = minus ∨ isDigit b then (parseNumber doubles (b :: rest)).map fun (x,rest) => (.number x,rest)
      else none

/-- The loop of `parse_array`. -/
def parseElements : Nat → List (Value Bytes F) → Bytes → Option (Value Bytes F × Bytes)
  | 0,_,_ => none
  | n + 1,elements,input => do
    let (value,rest) ← parseValue n input
    match skipWhitespace rest with
    | [] => none
    | b :: tail =>
      if b = comma then parseElements n (elements ++ [value]) tail
      else if b = closeBracket then some (.array (elements ++ [value]),tail)
      else none

/-- The loop of `parse_object_untyped`; keys are interned, so equal bytes are one key. -/
def parseMembers : Nat → List (Field Bytes F) → Bytes → Option (Value Bytes F × Bytes)
  | 0,_,_ => none
  | n + 1,fields,input => do
    let (key,rest) ← parseStringBytes (skipWhitespace input)
    let rest ← expect colon rest
    let (value,rest) ← parseValue n rest
    match skipWhitespace rest with
    | [] => none
    | b :: tail =>
      if b = comma then parseMembers n (setField key value fields) tail
      else if b = closeBrace then some (.object (setField key value fields),tail)
      else none

end

section

-- equations, made here once and not by the first proofs that unfold these
attribute [local simp] parseValue parseElements parseMembers

end

/-- `parse_value` from the start of the input, whose length is fuel enough. -/
def parseRoot (bytes : Bytes) : Option (Value Bytes F × Bytes) := parseValue doubles bytes.length bytes

/-- `parse_value`, then `finish`. -/
def parse (bytes : Bytes) : Option (Value Bytes F) := do
  let (value,rest) ← parseRoot doubles bytes
  if (skipWhitespace rest).isEmpty then some value else none

end Direct

section tokens

theorem isSpace_of_mem {gap : Gap} : ∀ c ∈ renderGap gap, isSpace c = true := by
  intro c member
  obtain ⟨s,-,rfl⟩ := List.mem_map.mp member
  cases s <;> decide

theorem skip_gap (gap : Gap) {b : UInt8} (token : isSpace b = false) (rest : Bytes) :
    skipWhitespace (renderGap gap ++ b :: rest) = b :: rest := by
  rw [skipWhitespace,List.dropWhile_append_of_pos isSpace_of_mem,List.dropWhile_cons_of_neg (by simp [token])]

theorem skip_gap_end (gap : Gap) : skipWhitespace (renderGap gap) = [] := by
  rw [← List.append_nil (renderGap gap),skipWhitespace,List.dropWhile_append_of_pos isSpace_of_mem]
  rfl

theorem ends_gap (gap : Gap) {b : UInt8} (closes : b = comma ∨ b = closeBracket ∨ b = closeBrace) (rest : Bytes) :
    Ends (renderGap gap ++ b :: rest) := by
  cases gap with
  | nil =>
    intro c head
    cases head
    exact .inr closes
  | cons s gap =>
    intro c head
    cases head
    left
    cases s <;> decide

theorem ends_gap_end (gap : Gap) : Ends (renderGap gap) := by
  cases gap with
  | nil => exact fun c none => by cases none
  | cons s gap =>
    intro c head
    cases head
    left
    cases s <;> decide

/-- The bytes a value can start with. -/
def Starts (b : UInt8) : Prop :=
  b = quote ∨ b = openBrace ∨ b = openBracket ∨ b = lowerT ∨ b = lowerF ∨ b = lowerN ∨ b = minus ∨ isDigit b = true

theorem Starts.not {b : UInt8} (starts : Starts b) : isSpace b = false ∧ b ≠ closeBracket ∧ b ≠ closeBrace := by
  obtain rfl | rfl | rfl | rfl | rfl | rfl | rfl | digit := starts
  iterate 7 decide
  simp only [isDigit,decide_eq_true_eq,UInt8.le_iff_toNat_le] at digit
  refine ⟨?_,?_,?_⟩
  · simp only [isSpace,decide_eq_false_iff_not]
    rintro (rfl | rfl | rfl | rfl) <;> exact absurd digit (by decide)
  · rintro rfl
    exact absurd digit (by decide)
  · rintro rfl
    exact absurd digit (by decide)

theorem Numeral.render_cons (n : Numeral) : ∃ b bs, n.render = b :: bs ∧ (b = minus ∨ isDigit b = true) := by
  rw [Numeral.render,Numeral.integer,renderDigits_cons]
  cases n.negative with
  | true => exact ⟨minus,_,rfl,.inl rfl⟩
  | false => exact ⟨n.first.byte,_,rfl,.inr n.first.facts.1⟩

theorem Doc.render_cons (d : Doc) : ∃ b bs, d.render = b :: bs ∧ Starts b := by
  cases d with
  | null => exact ⟨_,_,rfl,by unfold Starts; decide⟩
  | bool b => cases b <;> exact ⟨_,_,rfl,by unfold Starts; decide⟩
  | number n =>
    obtain ⟨b,bs,rendered,starts⟩ := n.render_cons
    refine ⟨b,bs,rendered,?_⟩
    obtain rfl | digit := starts
    · unfold Starts
      decide
    · unfold Starts
      simp [digit]
  | string s => exact ⟨_,_,rfl,.inl rfl⟩
  | emptyArray gap => exact ⟨_,_,rfl,.inr (.inr (.inl rfl))⟩
  | array elements => exact ⟨_,_,rfl,.inr (.inr (.inl rfl))⟩
  | emptyObject gap => exact ⟨_,_,rfl,.inr (.inl rfl)⟩
  | object members => exact ⟨_,_,rfl,.inr (.inl rfl)⟩

theorem number_start {b : UInt8} (first : b = minus ∨ isDigit b = true) :
    b ≠ quote ∧ b ≠ openBrace ∧ b ≠ openBracket ∧ b ≠ lowerT ∧ b ≠ lowerF ∧ b ≠ lowerN := by
  obtain rfl | digit := first
  · decide
  · simp only [isDigit,decide_eq_true_eq,UInt8.le_iff_toNat_le] at digit
    refine ⟨?_,?_,?_,?_,?_,?_⟩ <;> rintro rfl <;> exact absurd digit (by decide)

end tokens

section correct

open Direct

variable {F : Type} (doubles : Doubles F)

theorem literal_append (word : Bytes) (value : Value Bytes F) (rest : Bytes) :
    literal word value (word ++ rest) = some (value,rest) := by
  rw [literal,List.take_left,if_pos rfl,List.drop_left]

theorem expect_gap (gap : Gap) {ch : UInt8} (token : isSpace ch = false) (rest : Bytes) :
    expect ch (renderGap gap ++ ch :: rest) = some rest := by
  rw [expect,skip_gap gap token]
  exact if_pos rfl

theorem parseStringBytes_gap (gap : Gap) (key : List Item) (rest : Bytes) :
    parseStringBytes (skipWhitespace (renderGap gap ++ (renderString key ++ rest))) = some (directBytes key,rest) := by
  rw [renderString,List.cons_append,skip_gap gap (by decide),← List.cons_append]
  exact parseStringBytes_literal key rest

theorem skip_value (gap : Gap) (d : Doc) (rest : Bytes) :
    ∃ c cs, skipWhitespace (renderGap gap ++ (d.render ++ rest)) = c :: cs ∧ c ≠ closeBracket := by
  obtain ⟨b,bs,rendered,starts⟩ := d.render_cons
  exact ⟨b,bs ++ rest,by rw [rendered,List.cons_append,skip_gap gap starts.not.1],starts.not.2.1⟩

theorem skip_key (gap : Gap) (key : List Item) (rest : Bytes) :
    ∃ cs, skipWhitespace (renderGap gap ++ (renderString key ++ rest)) = quote :: cs :=
  ⟨renderItems key ++ [quote] ++ rest,by rw [renderString,List.cons_append,skip_gap gap (by decide)]⟩

theorem Elements.skip_cons (es : Elements) (rest : Bytes) :
    ∃ c cs, skipWhitespace (es.render ++ rest) = c :: cs ∧ c ≠ closeBracket := by
  cases es with
  | last before d after =>
    rw [Elements.render,List.append_assoc,List.append_assoc]
    exact skip_value before d _
  | cons before d after more =>
    rw [Elements.render,List.append_assoc,List.append_assoc,List.append_assoc]
    exact skip_value before d _

theorem Members.skip_cons (ms : Members) (rest : Bytes) : ∃ cs, skipWhitespace (ms.render ++ rest) = quote :: cs := by
  cases ms with
  | last before key mid after d close =>
    rw [Members.render,List.append_assoc,List.append_assoc,List.append_assoc]
    exact skip_key before key _
  | cons before key mid after d close more =>
    rw [Members.render,List.append_assoc,List.append_assoc,List.append_assoc]
    exact skip_key before key _

theorem skipWhitespace_skip (input : Bytes) : skipWhitespace (skipWhitespace input) = skipWhitespace input := by
  induction input with
  | nil => rfl
  | cons b input ih =>
    have step : skipWhitespace (b :: input) = if isSpace b then skipWhitespace input else b :: input := List.dropWhile_cons
    rw [step]
    split
    · exact ih
    · next token => exact List.dropWhile_cons_of_neg token

theorem parseElements_skip (n : Nat) (values : List (Value Bytes F)) (input : Bytes) :
    parseElements doubles n values (skipWhitespace input) = parseElements doubles n values input := by
  cases n with
  | zero => rw [parseElements,parseElements]
  | succ n =>
    cases n with
    | zero => rw [parseElements,parseElements,parseValue,parseValue]
    | succ n => rw [parseElements,parseElements,parseValue,parseValue,skipWhitespace_skip]

theorem parseMembers_skip (n : Nat) (fields : List (Field Bytes F)) (input : Bytes) :
    parseMembers doubles n fields (skipWhitespace input) = parseMembers doubles n fields input := by
  cases n with
  | zero => rw [parseMembers,parseMembers]
  | succ n => rw [parseMembers,parseMembers,skipWhitespace_skip]

mutual

theorem parseValue_render (d : Doc) (n : Nat) (fuel : d.render.length ≤ n) (gap : Gap) {rest : Bytes} (ends : Ends rest) :
    parseValue doubles n (renderGap gap ++ (d.render ++ rest)) = some (d.value doubles directBytes,rest) := by
  obtain ⟨b,bs,rendered,starts⟩ := d.render_cons
  obtain ⟨n,rfl⟩ : ∃ m, n = m + 1 := ⟨n - 1,by rw [rendered,List.length_cons] at fuel; omega⟩
  have skipped : skipWhitespace (renderGap gap ++ (d.render ++ rest)) = b :: (bs ++ rest) := by
    rw [rendered,List.cons_append,skip_gap gap starts.not.1]
  rw [parseValue,skipped]
  cases d with
  | null =>
    cases rendered
    exact literal_append nullBytes .null rest
  | bool v =>
    cases v with
    | false =>
      cases rendered
      exact literal_append falseBytes (.bool false) rest
    | true =>
      cases rendered
      exact literal_append trueBytes (.bool true) rest
  | number m =>
    have parsed := parseNumber_render doubles m ends.stops
    rw [Doc.render] at rendered
    obtain ⟨b',bs',same,first⟩ := m.render_cons
    obtain ⟨rfl,rfl⟩ := List.cons.inj (same.symm.trans rendered)
    have number := number_start first
    rw [rendered,List.cons_append] at parsed
    dsimp only
    simp only [number,if_false]
    rw [if_pos first,parsed]
    rfl
  | string s =>
    have parsed := parseStringBytes_literal s rest
    cases rendered
    dsimp only
    rw [if_pos rfl,← List.cons_append]
    rw [renderString] at parsed
    rw [parsed]
    rfl
  | emptyArray inner =>
    cases rendered
    dsimp only
    rw [if_neg (by decide),if_neg (by decide),if_pos rfl,List.append_assoc,List.singleton_append,
      skip_gap inner (by decide)]
    rfl
  | array elements =>
    cases rendered
    obtain ⟨c,cs,shape,open_⟩ := elements.skip_cons (closeBracket :: rest)
    have parsed := parseElements_render elements n (by
      rw [Doc.render,List.length_cons,List.length_append] at fuel
      simp only [List.length_singleton] at fuel
      omega) [] rest
    dsimp only
    rw [if_neg (by decide),if_neg (by decide),if_pos rfl,List.append_assoc,List.singleton_append,shape]
    dsimp only
    rw [if_neg open_,← shape,parseElements_skip,parsed]
    rfl
  | emptyObject inner =>
    cases rendered
    dsimp only
    rw [if_neg (by decide),if_pos rfl,List.append_assoc,List.singleton_append,skip_gap inner (by decide)]
    rfl
  | object members =>
    cases rendered
    obtain ⟨cs,shape⟩ := members.skip_cons (closeBrace :: rest)
    have parsed := parseMembers_render members n (by
      rw [Doc.render,List.length_cons,List.length_append] at fuel
      simp only [List.length_singleton] at fuel
      omega) [] rest
    dsimp only
    rw [if_neg (by decide),if_pos rfl,List.append_assoc,List.singleton_append,shape]
    dsimp only
    rw [if_neg (by decide),← shape,parseMembers_skip,parsed]
    rfl

theorem parseElements_render (es : Elements) (n : Nat) (fuel : es.render.length < n) (values : List (Value Bytes F))
    (rest : Bytes) :
    parseElements doubles n values (es.render ++ closeBracket :: rest) =
      some (.array (values ++ es.values doubles directBytes),rest) := by
  obtain ⟨n,rfl⟩ : ∃ m, n = m + 1 := ⟨n - 1,by omega⟩
  cases es with
  | last before d after =>
    have parsed := parseValue_render d n (by
      rw [Elements.render,List.length_append,List.length_append] at fuel
      omega) before (ends_gap after (.inr (.inl rfl)) rest)
    rw [Elements.render,List.append_assoc,List.append_assoc,parseElements,parsed]
    simp only [Option.bind_eq_bind,Option.bind_some]
    rw [skip_gap after (by decide)]
    rfl
  | cons before d after more =>
    have size : 0 < d.render.length := by
      obtain ⟨b,bs,rendered,-⟩ := d.render_cons
      rw [rendered]
      exact Nat.succ_pos _
    rw [Elements.render,List.length_append,List.length_append,List.length_append,List.length_cons] at fuel
    have parsed := parseValue_render d n (by omega) before (ends_gap after (.inl rfl) (more.render ++ closeBracket :: rest))
    have next := parseElements_render more n (by omega) (values ++ [d.value doubles directBytes]) rest
    rw [Elements.render,List.append_assoc,List.append_assoc,List.append_assoc,List.cons_append,parseElements,parsed]
    simp only [Option.bind_eq_bind,Option.bind_some]
    rw [skip_gap after (by decide)]
    dsimp only
    rw [if_pos rfl,next,List.append_assoc]
    rfl

theorem parseMembers_render (ms : Members) (n : Nat) (fuel : ms.render.length < n) (fields : List (Field Bytes F))
    (rest : Bytes) :
    parseMembers doubles n fields (ms.render ++ closeBrace :: rest) =
      some (.object (ms.fields doubles directBytes fields),rest) := by
  obtain ⟨n,rfl⟩ : ∃ m, n = m + 1 := ⟨n - 1,by omega⟩
  cases ms with
  | last before key mid after d close =>
    simp only [Members.render,List.length_append,List.length_cons] at fuel
    have parsed := parseValue_render d n (by omega) after (ends_gap close (.inr (.inr rfl)) rest)
    have shape : Members.render (.last before key mid after d close) ++ closeBrace :: rest =
        renderGap before ++ (renderString key ++ (renderGap mid ++ colon :: (renderGap after ++
          (d.render ++ (renderGap close ++ closeBrace :: rest))))) := by
      simp only [Members.render,List.append_assoc,List.cons_append]
    rw [shape,parseMembers,parseStringBytes_gap]
    simp only [Option.bind_eq_bind,Option.bind_some,expect_gap mid (show isSpace colon = false by decide),parsed]
    rw [skip_gap close (by decide)]
    rfl
  | cons before key mid after d close more =>
    simp only [Members.render,List.length_append,List.length_cons] at fuel
    have parsed := parseValue_render d n (by omega) after (ends_gap close (.inl rfl) (more.render ++ closeBrace :: rest))
    have next := parseMembers_render more n (by omega)
      (setField (directBytes key) (d.value doubles directBytes) fields) rest
    have shape : Members.render (.cons before key mid after d close more) ++ closeBrace :: rest =
        renderGap before ++ (renderString key ++ (renderGap mid ++ colon :: (renderGap after ++
          (d.render ++ (renderGap close ++ comma :: (more.render ++ closeBrace :: rest)))))) := by
      simp only [Members.render,List.append_assoc,List.cons_append]
    rw [shape,parseMembers,parseStringBytes_gap]
    simp only [Option.bind_eq_bind,Option.bind_some,expect_gap mid (show isSpace colon = false by decide),parsed]
    rw [skip_gap close (by decide)]
    dsimp only
    rw [if_pos rfl,next]
    rfl

end

theorem parseRoot_render (t : Text) :
    parseRoot doubles t.render = some (t.doc.value doubles directBytes,renderGap t.after) := by
  rw [parseRoot]
  have enough : t.doc.render.length ≤ t.render.length := by
    rw [Text.render,List.length_append,List.length_append]
    omega
  have parsed := parseValue_render doubles t.doc t.render.length enough t.before (ends_gap_end t.after)
  rw [← parsed,Text.render,List.append_assoc]

/-- The direct parser reads every text, with each string as `directBytes` has it. -/
theorem parse_render (t : Text) : parse doubles t.render = some (t.doc.value doubles directBytes) := by
  rw [parse,parseRoot_render]
  simp [skip_gap_end]

end correct

end Perry.Json
