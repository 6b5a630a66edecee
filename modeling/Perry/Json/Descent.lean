import Perry.Json.Acceptance

/-! `DirectParser` as it runs: a position that moves on, a flag that a failure clears, and
the calls on the stack. A failed call returns like any other, and its callers read one
closer more before they return too. -/
namespace Perry.Json

/-- `rest` is the input from `pos` on. `active` counts the calls of `parse_object` and
`parse_array` that have not returned; `deepest` is the most there have been. -/
structure DirectParser where
  rest : Bytes
  valid : Bool
  active : Nat
  deepest : Nat

namespace DirectParser

section cursor

/-- `DirectParser::new`. -/
def new (input : Bytes) : DirectParser := ⟨input,true,0,0⟩

def peek (p : DirectParser) : Option UInt8 := p.rest.head?

def advance (p : DirectParser) : DirectParser := {p with rest := p.rest.tail}

def skipWhitespace (p : DirectParser) : DirectParser := {p with rest := Json.skipWhitespace p.rest}

def expect (p : DirectParser) (ch : UInt8) : Bool × DirectParser :=
  let p := p.skipWhitespace
  if p.peek = some ch then (true,p.advance) else (false,{p with valid := false})

def enter (p : DirectParser) : DirectParser :=
  {p with active := p.active + 1, deepest := max p.deepest (p.active + 1)}

def leave (p : DirectParser) : DirectParser := {p with active := p.active - 1}

end cursor

section tokens

variable {F : Type}

def invalidValue (p : DirectParser) : Value Bytes F × DirectParser := (.null,{p with valid := false})

/-- Where `parse_string_bytes_slow` leaves the position when it fails. -/
def slowStop : Nat → Bytes → Bytes
  | 0,input => input
  | _ + 1,[] => []
  | n + 1,ch :: rest =>
    if ch = quote then rest
    else if ch = backslash then
      match rest with
      | [] => []
      | esc :: rest =>
        if (simpleEscape esc).isSome then slowStop n rest
        else if esc = lowerU then
          match Direct.decodeHexU16 (rest.take 4) with
          | none => rest
          | some code => slowStop n (if (Direct.pairedLow code (rest.drop 4)).isSome then rest.drop 10 else rest.drop 4)
        else rest
    else if ch < 0x20 then rest
    else slowStop n rest

/-- Where `parse_string_bytes` leaves the position when it fails. -/
def stringStop : Bytes → Bytes
  | [] => []
  | b :: input =>
    if b = quote then
      match input.dropWhile (!Direct.isTerminator ·) with
      | [] => input
      | ch :: rest => if ch < 0x20 then ch :: rest else slowStop (input.length + 1) (ch :: rest)
    else b :: input

def parseStringBytes (p : DirectParser) : Option Bytes × DirectParser :=
  match Direct.parseStringBytes p.rest with
  | some (s,rest) => (some s,{p with rest := rest})
  | none => (none,{p with rest := stringStop p.rest, valid := false})

def parseStringValue (p : DirectParser) : Value Bytes F × DirectParser :=
  match p.parseStringBytes with
  | (some s,p) => (.string s,p)
  | (none,p) => p.invalidValue

/-- Where `parse_number` leaves the position when it fails. -/
def numberStop (input : Bytes) : Bytes :=
  let body := if input.head? = some minus then input.tail else input
  match body with
  | [] => []
  | b :: rest =>
    if b = 0x30 ∧ rest.head?.any isDigit then rest.dropWhile isDigit
    else if !isDigit b then body
    else
      let rest := if b = 0x30 then rest else body.dropWhile isDigit
      if rest.head? = some dot ∧ (rest.tail.takeWhile isDigit).isEmpty then rest.tail
      else
        -- the exponent has no digits
        let rest := if rest.head? = some dot then rest.tail.dropWhile isDigit else rest
        if rest.tail.head? = some plus ∨ rest.tail.head? = some minus then rest.tail.tail else rest.tail

def parseNumber (doubles : Doubles F) (p : DirectParser) : Value Bytes F × DirectParser :=
  match Direct.parseNumber doubles p.rest with
  | some (x,rest) => (.number x,{p with rest := rest})
  | none => invalidValue {p with rest := numberStop p.rest}

def parseLiteral (word : Bytes) (value : Value Bytes F) (p : DirectParser) : Value Bytes F × DirectParser :=
  if p.rest.take word.length = word then (value,{p with rest := p.rest.drop word.length}) else p.invalidValue

def parseTrue (p : DirectParser) : Value Bytes F × DirectParser := p.parseLiteral trueBytes (.bool true)

def parseFalse (p : DirectParser) : Value Bytes F × DirectParser := p.parseLiteral falseBytes (.bool false)

def parseNull (p : DirectParser) : Value Bytes F × DirectParser := p.parseLiteral nullBytes .null

end tokens

section containers

variable {F : Type} (doubles : Doubles F)

/-- `parse_array` around its loop. -/
def parseArray (loop : DirectParser → List (Value Bytes F) × DirectParser) (p : DirectParser) :
    Value Bytes F × DirectParser :=
  let p := p.enter.advance.skipWhitespace
  if p.peek = some closeBracket then (.array [],p.advance.leave)
  else
    let (elements,p) := loop p
    (.array elements,(p.expect closeBracket).2.leave)

/-- `parse_object_untyped` around its loop. -/
def parseObjectUntyped (loop : DirectParser → List (Field Bytes F) × DirectParser) (p : DirectParser) :
    Value Bytes F × DirectParser :=
  let p := p.enter.advance.skipWhitespace
  if p.peek = some closeBrace then (.object [],p.advance.leave)
  else
    let (fields,p) := loop p
    (.object fields,(p.expect closeBrace).2.leave)

mutual

def parseValue : Nat → DirectParser → Value Bytes F × DirectParser
  | 0,p => p.invalidValue
  | n + 1,p =>
    let p := p.skipWhitespace
    match p.peek with
    | none => p.invalidValue
    | some b =>
      if b = quote then p.parseStringValue
      else if b = openBrace then p.parseObjectUntyped (parseMembers n [])
      else if b = openBracket then p.parseArray (parseElements n [])
      else if b = lowerT then p.parseTrue
      else if b = lowerF then p.parseFalse
      else if b = lowerN then p.parseNull
      else if b = minus ∨ isDigit b then p.parseNumber doubles
      else p.invalidValue

/-- The loop of `parse_array`. -/
def parseElements : Nat → List (Value Bytes F) → DirectParser → List (Value Bytes F) × DirectParser
  | 0,elements,p => (elements,{p with valid := false})
  | n + 1,elements,p =>
    let (value,p) := parseValue n p
    if !p.valid then (elements,p)
    else
      let p := p.skipWhitespace
      if p.peek = some comma then parseElements n (elements ++ [value]) p.advance
      else (elements ++ [value],p)

/-- The loop of `parse_object_untyped`; keys are interned, so equal bytes are one key. -/
def parseMembers : Nat → List (Field Bytes F) → DirectParser → List (Field Bytes F) × DirectParser
  | 0,fields,p => (fields,{p with valid := false})
  | n + 1,fields,p =>
    match p.skipWhitespace.parseStringBytes with
    | (none,p) => (fields,p)
    | (some key,p) =>
      match p.expect colon with
      | (false,p) => (fields,p)
      | (true,p) =>
        let (value,p) := parseValue n p
        if !p.valid then (fields,p)
        else
          let p := p.skipWhitespace
          if p.peek = some comma then parseMembers n (setField key value fields) p.advance
          else (setField key value fields,p)

end

section

-- equations, made here once and not by the first proofs that unfold these
attribute [local simp] parseValue parseElements parseMembers

end

/-- `parse_value` on the whole input. A nested value takes two calls for each byte at
most, so that the fuel lasts. -/
def parseRoot (bytes : Bytes) : Value Bytes F × DirectParser := parseValue doubles (2 * bytes.length + 1) (new bytes)

/-- The check behind the root value. -/
def finish (p : DirectParser) : Bool :=
  let p := p.skipWhitespace
  p.valid && p.rest.isEmpty

end containers

section agreement

variable {F : Type} {doubles : Doubles F}

/-- What a call amounts to for `Direct`: nothing, once the flag is cleared. -/
def outcome {α : Type} (r : α × DirectParser) : Option (α × Bytes) := if r.2.valid then some (r.1,r.2.rest) else none

variable {p : DirectParser}

theorem outcome_invalid : outcome (p.invalidValue : Value Bytes F × DirectParser) = none := rfl

theorem string_some {s rest : Bytes} (read : Direct.parseStringBytes p.rest = some (s,rest)) :
    p.parseStringBytes = (some s,{p with rest := rest}) := by
  rw [parseStringBytes,read]

theorem string_none (broken : Direct.parseStringBytes p.rest = none) :
    p.parseStringBytes = (none,{p with rest := stringStop p.rest, valid := false}) := by
  rw [parseStringBytes,broken]

theorem outcome_string (valid : p.valid = true) : outcome (p.parseStringValue : Value Bytes F × DirectParser) =
    (Direct.parseStringBytes p.rest).map fun (s,rest) => (.string s,rest) := by
  rw [parseStringValue]
  cases read : Direct.parseStringBytes p.rest with
  | none =>
    rw [string_none read]
    rfl
  | some pair =>
    rw [string_some read]
    exact if_pos valid

theorem outcome_number (valid : p.valid = true) : outcome (p.parseNumber doubles) =
    (Direct.parseNumber doubles p.rest).map fun (x,rest) => (.number x,rest) := by
  rw [parseNumber]
  cases Direct.parseNumber doubles p.rest with
  | none => rfl
  | some read => exact if_pos valid

theorem outcome_literal (valid : p.valid = true) (word : Bytes) (value : Value Bytes F) :
    outcome (p.parseLiteral word value) = Direct.literal word value p.rest := by
  rw [parseLiteral,Direct.literal]
  split
  · exact if_pos valid
  · rfl

theorem expect_some {ch : UInt8} {rest : Bytes} (read : Direct.expect ch p.rest = some rest) :
    p.expect ch = (true,{p with rest := rest}) := by
  rw [Direct.expect] at read
  split at read
  · cases read
  · next b tail skipped =>
    split at read
    · next same =>
      cases read
      have here : p.skipWhitespace.rest = b :: rest := skipped
      rw [expect,peek,advance,here,List.head?_cons,same]
      exact if_pos rfl
    · cases read

theorem expect_none {ch : UInt8} (missing : Direct.expect ch p.rest = none) :
    p.expect ch = (false,{p.skipWhitespace with valid := false}) := by
  have here : p.skipWhitespace.rest = Json.skipWhitespace p.rest := rfl
  rw [Direct.expect] at missing
  rw [expect,peek,here]
  refine if_neg ?_
  split at missing
  · next skipped => simp [skipped]
  · next b tail skipped =>
    split at missing
    · cases missing
    · next other => simpa [skipped] using other

/-- Reading the closer, where the loop of a container ends. -/
theorem outcome_close {α : Type} (valid : p.valid = true) (value : α) (closer : UInt8) :
    outcome (value,(p.expect closer).2.leave) =
      match Json.skipWhitespace p.rest with
      | [] => none
      | b :: tail => if b = closer then some (value,tail) else none := by
  rw [expect]
  cases skipped : Json.skipWhitespace p.rest with
  | nil => simp [peek,DirectParser.skipWhitespace,skipped,outcome,leave]
  | cons b tail =>
    by_cases same : b = closer
    · simp [peek,DirectParser.skipWhitespace,skipped,outcome,leave,advance,same,valid]
    · simp [peek,DirectParser.skipWhitespace,skipped,outcome,leave,same]

theorem outcome_failed {α : Type} (invalid : p.valid = false) (value : α) (closer : UInt8) :
    outcome (value,(p.expect closer).2.leave) = none := by
  rw [expect]
  split
  · exact if_neg (by simpa [leave,advance,DirectParser.skipWhitespace] using invalid)
  · rfl

/-- The two parts of a container: an empty one, or the loop and the closer. -/
theorem outcome_container {α : Type} {loop : DirectParser → List α × DirectParser} (valid : p.valid = true)
    (value : List α → Value Bytes F) (closer : UInt8) {direct : Bytes → Option (Value Bytes F × Bytes)}
    (looped : ∀ q : DirectParser, q.valid = true →
      outcome (value (loop q).1,((loop q).2.expect closer).2.leave) = direct q.rest) (empty : direct [] = none) :
    outcome (let q := p.enter.advance.skipWhitespace
      if q.peek = some closer then (value [],q.advance.leave)
      else
        let (parts,q) := loop q
        (value parts,(q.expect closer).2.leave)) =
      match Json.skipWhitespace p.rest.tail with
      | [] => none
      | c :: tail => if c = closer then some (value [],tail) else direct (c :: tail) := by
  have entered : p.enter.advance.skipWhitespace.valid = true := valid
  have at_ : p.enter.advance.skipWhitespace.rest = Json.skipWhitespace p.rest.tail := rfl
  generalize p.enter.advance.skipWhitespace = q at entered at_
  have run := looped q entered
  dsimp only
  rw [at_] at run
  rw [peek,at_]
  cases skipped : Json.skipWhitespace p.rest.tail with
  | nil =>
    rw [skipped] at run
    exact run.trans empty
  | cons c tail =>
    rw [skipped] at run
    by_cases same : c = closer
    · simp [same,outcome,leave,advance,entered,at_,skipped]
    · simpa [same] using run

/-- Behind a part of a container: a comma and the next part, or the closer. -/
theorem outcome_next {α : Type} {next : DirectParser → List α × DirectParser} {value : List α → Value Bytes F}
    {closer : UInt8} (valid : p.valid = true) {direct : Bytes → Option (Value Bytes F × Bytes)} (parts : List α)
    (looped : ∀ q : DirectParser, q.valid = true →
      outcome (value (next q).1,((next q).2.expect closer).2.leave) = direct q.rest) :
    outcome (
      let r := if p.skipWhitespace.peek = some comma then next p.skipWhitespace.advance else (parts,p.skipWhitespace)
      (value r.1,(r.2.expect closer).2.leave)) =
      match Json.skipWhitespace p.rest with
      | [] => none
      | b :: tail => if b = comma then direct tail else if b = closer then some (value parts,tail) else none := by
  have closing := outcome_close (p := p.skipWhitespace) valid (value parts) closer
  have at_ : p.skipWhitespace.rest = Json.skipWhitespace p.rest := rfl
  have run := looped p.skipWhitespace.advance valid
  rw [at_,skipWhitespace_skip] at closing
  rw [advance,at_] at run
  rw [advance,peek,at_]
  dsimp only
  cases skipped : Json.skipWhitespace p.rest with
  | nil =>
    rw [skipped] at closing
    exact closing
  | cons b tail =>
    rw [skipped] at closing run
    by_cases same : b = comma
    · rw [if_pos (by rw [same]; rfl)]
      exact run.trans (if_pos same).symm
    · rw [if_neg (by simpa using same)]
      exact closing.trans (if_neg same).symm

theorem elements_nil (n : Nat) (elements : List (Value Bytes F)) : Direct.parseElements doubles n elements [] = none := by
  cases n with
  | zero => rw [Direct.parseElements]
  | succ n => cases n <;> rw [Direct.parseElements,Direct.parseValue] <;> rfl

theorem members_nil (n : Nat) (fields : List (Field Bytes F)) : Direct.parseMembers doubles n fields [] = none := by
  cases n with
  | zero => rw [Direct.parseMembers]
  | succ n =>
    rw [Direct.parseMembers]
    rfl

mutual

theorem outcome_value (n : Nat) {p : DirectParser} (valid : p.valid = true) :
    outcome (parseValue doubles n p) = Direct.parseValue doubles n p.rest := by
  cases n with
  | zero => rw [parseValue,Direct.parseValue,outcome_invalid]
  | succ n =>
    have skipped : p.skipWhitespace.valid = true := valid
    have at_ : p.skipWhitespace.rest = Json.skipWhitespace p.rest := rfl
    rw [parseValue,Direct.parseValue]
    generalize p.skipWhitespace = q at skipped at_
    dsimp only
    rw [peek,at_]
    rcases h : Json.skipWhitespace p.rest with _ | ⟨b,tail⟩
    · rfl
    · rw [h] at at_
      simp only [List.head?_cons]
      split_ifs with string object array t f nul number
      · rw [outcome_string skipped,at_]
      · have agreed := outcome_container skipped .object closeBrace
          (fun r rested => outcome_members n [] rested) (members_nil n [])
        rw [at_] at agreed
        exact agreed
      · have agreed := outcome_container skipped .array closeBracket
          (fun r rested => outcome_elements n [] rested) (elements_nil n [])
        rw [at_] at agreed
        exact agreed
      · rw [parseTrue,outcome_literal skipped,at_]
      · rw [parseFalse,outcome_literal skipped,at_]
      · rw [parseNull,outcome_literal skipped,at_]
      · rw [outcome_number skipped,at_]
      · rfl

theorem outcome_elements (n : Nat) (elements : List (Value Bytes F)) {p : DirectParser} (valid : p.valid = true) :
    outcome (Value.array (parseElements doubles n elements p).1,
      ((parseElements doubles n elements p).2.expect closeBracket).2.leave) =
      Direct.parseElements doubles n elements p.rest := by
  cases n with
  | zero =>
    rw [parseElements,Direct.parseElements]
    exact outcome_failed rfl _ _
  | succ n =>
    have first := outcome_value n valid
    rw [parseElements,Direct.parseElements,← first]
    generalize parseValue doubles n p = r
    obtain ⟨value,q⟩ := r
    by_cases lives : q.valid = true
    · simp only [outcome,lives,Bool.not_true,Bool.false_eq_true,if_false,if_true,Option.bind_eq_bind,Option.bind_some]
      exact outcome_next lives (elements ++ [value]) fun r rested => outcome_elements n (elements ++ [value]) rested
    · have failed : q.valid = false := by simpa using lives
      have read : outcome (value,q) = none := if_neg lives
      rw [read]
      simp only [failed,Bool.not_false,if_true]
      exact outcome_failed failed _ _

theorem outcome_members (n : Nat) (fields : List (Field Bytes F)) {p : DirectParser} (valid : p.valid = true) :
    outcome (Value.object (parseMembers doubles n fields p).1,
      ((parseMembers doubles n fields p).2.expect closeBrace).2.leave) =
      Direct.parseMembers doubles n fields p.rest := by
  cases n with
  | zero =>
    rw [parseMembers,Direct.parseMembers]
    exact outcome_failed rfl _ _
  | succ n =>
    rw [parseMembers,Direct.parseMembers]
    rcases name : Direct.parseStringBytes (Json.skipWhitespace p.rest) with _ | ⟨key,rest⟩
    · rw [string_none (p := p.skipWhitespace) name]
      exact outcome_failed rfl _ _
    rw [string_some (p := p.skipWhitespace) name]
    simp only [Option.bind_eq_bind,Option.bind_some]
    cases read : Direct.expect colon rest with
    | none =>
      rw [expect_none (p := {p.skipWhitespace with rest := rest}) read]
      exact outcome_failed rfl _ _
    | some rest =>
      rw [expect_some (p := {p.skipWhitespace with rest := _}) read]
      simp only [Option.bind_some]
      have first := outcome_value n (p := {p.skipWhitespace with rest := rest}) valid
      rw [← first]
      generalize parseValue doubles n _ = r
      obtain ⟨value,q⟩ := r
      by_cases lives : q.valid = true
      · simp only [outcome,lives,Bool.not_true,Bool.false_eq_true,if_false,if_true,Option.bind_some]
        exact outcome_next lives _ fun r rested => outcome_members n _ rested
      · have failed : q.valid = false := by simpa using lives
        have read : outcome (value,q) = none := if_neg lives
        rw [read]
        simp only [failed,Bool.not_false,if_true]
        exact outcome_failed failed _ _

end

theorem parseRoot_render (t : Text) :
    outcome (parseRoot doubles t.render) = some (t.doc.value doubles directBytes,renderGap t.after) := by
  have enough : t.doc.render.length ≤ 2 * t.render.length + 1 := by
    rw [Text.render,List.length_append,List.length_append]
    omega
  have parsed := parseValue_render doubles t.doc _ enough t.before (ends_gap_end t.after)
  have read : outcome (parseValue doubles (2 * t.render.length + 1) (new t.render)) = _ := outcome_value _ rfl
  have shape : t.render = renderGap t.before ++ (t.doc.render ++ renderGap t.after) := by
    rw [Text.render,List.append_assoc]
  rw [parseRoot,read,← parsed,← shape]
  rfl

end agreement

end DirectParser

end Perry.Json
