import Perry.Json.DepthGuard
import Perry.Json.Descent

/-! As long as nothing has failed, the depth of the guard's scan at the parser's position
is the number of calls on the parser's stack; after a failure no further call is made. So
an input that passes the guard never drives the parser deeper than the limit. -/
namespace Perry.Json

namespace DirectParser

section kept

/-- The scan is not stopped in what is left of the input, and was not stopped before. -/
structure Guarded (limit : Nat) (p : DirectParser) : Prop where
  deepest : p.deepest ≤ limit
  scanned : p.valid = true → (scanFrom limit p.active p.rest).isSome = true

/-- Reading on: the parser stays within what the guard let through, and the guard lets
through what was read as far as the stack fits the limit. -/
structure Reads (p q : DirectParser) : Prop where
  alive : q.valid = true → p.valid = true
  rising : p.deepest ≤ q.deepest
  shorter : q.valid = true → q.rest.length ≤ p.rest.length
  guarded : ∀ limit, Guarded limit p → Guarded limit q
  scanned : q.valid = true → ∀ limit, q.deepest ≤ limit →
    scanFrom limit p.active p.rest = scanFrom limit q.active q.rest

/-- What a call does to the parser: it reads on, and returns with the stack as it found it. -/
structure Kept (p q : DirectParser) : Prop extends Reads p q where
  active : q.active = p.active

variable {limit : Nat} {p q r : DirectParser} {b : UInt8} {tail : Bytes}

theorem Reads.trans (first : Reads p q) (second : Reads q r) : Reads p r where
  alive := fun lives => first.alive (second.alive lives)
  rising := first.rising.trans second.rising
  shorter := fun lives => (second.shorter lives).trans (first.shorter (second.alive lives))
  guarded := fun limit guarded => second.guarded limit (first.guarded limit guarded)
  scanned := fun lives limit room =>
    (first.scanned (second.alive lives) limit (second.rising.trans room)).trans (second.scanned lives limit room)

theorem Kept.trans (first : Kept p q) (second : Kept q r) : Kept p r :=
  ⟨first.toReads.trans second.toReads,second.active.trans first.active⟩

/-- Reading on without crossing a bracket. -/
theorem Kept.passed {rest : Bytes} (shorter : rest.length ≤ p.rest.length)
    (flat : ∀ limit depth, scanFrom limit depth p.rest = scanFrom limit depth rest) : Kept p {p with rest := rest} where
  alive := id
  rising := le_rfl
  shorter := fun _ => shorter
  guarded := fun limit guarded => ⟨guarded.deepest,fun valid => (flat limit p.active) ▸ guarded.scanned valid⟩
  scanned := fun _ limit _ => flat limit p.active
  active := rfl

/-- A failure, wherever it leaves the position. -/
theorem Reads.failed (dead : q.valid = false) (same : q.deepest = p.deepest) : Reads p q := by
  have dead : q.valid ≠ true := Bool.eq_false_iff.mp dead
  exact {
    alive := fun lives => (dead lives).elim
    rising := same.ge
    shorter := fun lives => (dead lives).elim
    guarded := fun limit guarded => ⟨same.trans_le guarded.deepest,fun lives => (dead lives).elim⟩
    scanned := fun lives => (dead lives).elim }

theorem Kept.failed (rest : Bytes) : Kept p {p with rest := rest, valid := false} := ⟨.failed rfl rfl,rfl⟩

theorem skipWhitespace_length (input : Bytes) : (Json.skipWhitespace input).length ≤ input.length :=
  (List.dropWhile_suffix _).length_le

theorem Kept.skipped : Kept p p.skipWhitespace :=
  .passed (skipWhitespace_length p.rest) fun _ _ => (scan_skip p.rest).symm

theorem Kept.advanced (flat : Flat b) (here : p.rest = b :: tail) : Kept p p.advance :=
  .passed (List.tail_suffix _).length_le fun _ _ => by rw [here,scan_flat flat,List.tail_cons]

theorem kept_expect (flat : Flat b) (p : DirectParser) : Kept p (p.expect b).2 := by
  cases read : Direct.expect b p.rest with
  | none =>
    rw [expect_none read]
    exact .failed _
  | some rest =>
    obtain ⟨gap,split⟩ := of_expect read
    rw [expect_some read]
    refine .passed ?_ fun _ _ => by rw [split,scan_gap,scan_flat flat]
    rw [split,List.length_append,List.length_cons]
    omega

theorem kept_string (p : DirectParser) : Kept p p.parseStringBytes.2 := by
  rcases read : Direct.parseStringBytes p.rest with _ | ⟨s,rest⟩
  · rw [string_none read]
    exact .failed _
  · obtain ⟨items,split⟩ := string_of_parse read
    rw [string_some read]
    refine .passed ?_ fun _ _ => by rw [split,scan_literal]
    rw [split,List.length_append]
    omega

variable {F : Type} {doubles : Doubles F}

theorem kept_invalid (p : DirectParser) : Kept p (p.invalidValue : Value Bytes F × DirectParser).2 := .failed p.rest

theorem kept_stringValue (p : DirectParser) : Kept p (p.parseStringValue : Value Bytes F × DirectParser).2 := by
  have kept := kept_string p
  rw [parseStringValue]
  rcases read : p.parseStringBytes with ⟨_ | s,q⟩ <;> rw [read] at kept
  · exact kept.trans (kept_invalid q)
  · exact kept

theorem kept_number (p : DirectParser) : Kept p (p.parseNumber doubles).2 := by
  rw [parseNumber]
  rcases read : Direct.parseNumber doubles p.rest with _ | ⟨x,rest⟩
  · exact .failed _
  · obtain ⟨n,split⟩ := numeral_of_parse read
    refine .passed ?_ fun _ _ => by rw [split,scan_numeral]
    rw [split,List.length_append]
    omega

theorem kept_literal {word : Bytes} (flat : ∀ b ∈ word, Flat b) (value : Value Bytes F) (p : DirectParser) :
    Kept p (p.parseLiteral word value).2 := by
  rw [parseLiteral]
  split
  · next same =>
    have split := List.take_append_drop word.length p.rest
    rw [same] at split
    refine .passed ((List.drop_suffix ..).length_le) fun _ _ => ?_
    conv_lhs => rw [← split,scan_flats flat]
  · exact .failed _

end kept

section containers

variable {p q : DirectParser} {b closer : UInt8} {tail : Bytes}

/-- A call is made at the byte that lets the scan count one more. -/
theorem Reads.entered (valid : p.valid = true) (opens : b = openBracket ∨ b = openBrace) (here : p.rest = b :: tail) :
    Reads p p.enter.advance where
  alive := fun _ => valid
  rising := le_max_left ..
  shorter := fun _ => (List.tail_suffix _).length_le
  guarded := fun limit guarded => by
    have scanned := guarded.scanned valid
    have left : p.enter.advance.rest = tail := congrArg List.tail here
    rw [here,scan_opener opens] at scanned
    split at scanned
    · next room => exact ⟨max_le guarded.deepest room,fun _ => by rw [left]; exact scanned⟩
    · cases scanned
  scanned := fun _ limit room => by
    have left : p.enter.advance.rest = tail := congrArg List.tail here
    rw [here,scan_opener opens,left]
    exact if_pos ((le_max_right ..).trans room)

/-- A call returns behind the byte that lets the scan count one less. -/
theorem Reads.left {depth : Nat} (inside : p.active = depth + 1) (closes : closer = closeBracket ∨ closer = closeBrace)
    (here : p.rest = closer :: tail) : Reads p p.advance.leave := by
  have left : p.advance.leave.rest = tail := congrArg List.tail here
  have outside : p.advance.leave.active = depth := congrArg (· - 1) inside
  have same (limit : Nat) : scanFrom limit p.active p.rest = scanFrom limit p.advance.leave.active p.advance.leave.rest := by
    rw [here,inside,left,outside,scan_closer closes]
  exact {
    alive := id
    rising := le_rfl
    shorter := fun _ => (List.tail_suffix _).length_le
    guarded := fun limit guarded => ⟨guarded.deepest,fun valid => (same limit) ▸ guarded.scanned valid⟩
    scanned := fun _ limit _ => same limit }

/-- The closer, whether it is there or not. -/
theorem Reads.closed {depth : Nat} (inside : p.active = depth + 1) (closes : closer = closeBracket ∨ closer = closeBrace) :
    Reads p (p.expect closer).2.leave := by
  have skipped : Reads p p.skipWhitespace := Kept.skipped.toReads
  rw [expect]
  split
  · next found =>
    rw [peek] at found
    obtain ⟨tail,found⟩ := List.head?_eq_some_iff.mp found
    exact skipped.trans (.left inside closes found)
  · exact .failed rfl rfl

theorem expect_active (p : DirectParser) (ch : UInt8) : (p.expect ch).2.active = p.active := by
  rw [expect]
  split <;> rfl

/-- A container, given what its loop does. -/
theorem kept_container {α β : Type} {loop : DirectParser → List α × DirectParser} {value : List α → β}
    (valid : p.valid = true) (opens : b = openBracket ∨ b = openBrace) (here : p.rest = b :: tail)
    (closes : closer = closeBracket ∨ closer = closeBrace)
    (looped : ∀ q : DirectParser, q.valid = true → Kept q (loop q).2) :
    Kept p (let q := p.enter.advance.skipWhitespace
      if q.peek = some closer then (value [],q.advance.leave)
      else
        let (parts,q) := loop q
        (value parts,(q.expect closer).2.leave)).2 := by
  have inside : p.enter.advance.skipWhitespace.active = p.active + 1 := rfl
  have entered : p.enter.advance.skipWhitespace.valid = true := valid
  have reads : Reads p p.enter.advance.skipWhitespace := (Reads.entered valid opens here).trans Kept.skipped.toReads
  generalize p.enter.advance.skipWhitespace = q at inside entered reads
  dsimp only
  by_cases empty : q.peek = some closer
  · rw [if_pos empty]
    rw [peek] at empty
    obtain ⟨tail,found⟩ := List.head?_eq_some_iff.mp empty
    exact ⟨reads.trans (.left inside closes found),congrArg (· - 1) inside⟩
  · rw [if_neg empty]
    have kept := looped q entered
    generalize loop q = r at kept
    obtain ⟨parts,r⟩ := r
    have active : r.active = p.active + 1 := kept.active.trans inside
    refine ⟨(reads.trans kept.toReads).trans (.closed active closes),?_⟩
    have pop : (r.expect closer).2.leave.active = (r.expect closer).2.active - 1 := rfl
    rw [pop,expect_active,active,Nat.add_sub_cancel]

/-- Behind a part of a container: the end of the loop, or a comma and the next part. -/
theorem kept_part {α : Type} {next : DirectParser → List α × DirectParser} (first : Kept p q) (before parts : List α)
    (looped : ∀ r : DirectParser, r.valid = true → Kept r (next r).2) :
    Kept p (if !q.valid then (before,q)
      else
        let q := q.skipWhitespace
        if q.peek = some comma then next q.advance else (parts,q)).2 := by
  by_cases lives : q.valid = true
  · have skipped : Kept p q.skipWhitespace := first.trans .skipped
    rw [if_neg (by simp [lives])]
    dsimp only
    split
    · next found =>
      rw [peek] at found
      obtain ⟨tail,found⟩ := List.head?_eq_some_iff.mp found
      have passed : Kept p q.skipWhitespace.advance := skipped.trans (.advanced (by decide) found)
      exact passed.trans (looped _ lives)
    · exact skipped
  · rw [if_pos (by simpa using lives)]
    exact first

variable {F : Type} (doubles : Doubles F)

mutual

/-- A call of `parse_value`, with whatever fuel and on whatever input. -/
theorem kept_value (n : Nat) {p : DirectParser} (valid : p.valid = true) : Kept p (parseValue doubles n p).2 := by
  cases n with
  | zero =>
    rw [parseValue]
    exact kept_invalid p
  | succ n =>
    have skipped : Kept p p.skipWhitespace := .skipped
    have lives : p.skipWhitespace.valid = true := valid
    rw [parseValue]
    generalize p.skipWhitespace = q at skipped lives
    refine skipped.trans ?_
    rcases q with ⟨_ | ⟨b,tail⟩,v,active,deepest⟩
    · exact kept_invalid _
    · simp only [peek,List.head?_cons]
      split_ifs with string object array t f nul number
      · exact kept_stringValue _
      · exact kept_container lives (.inr object) rfl (.inr rfl) fun r rested => kept_members n [] rested
      · exact kept_container lives (.inl array) rfl (.inl rfl) fun r rested => kept_elements n [] rested
      · exact kept_literal (flat_word (by decide)) _ _
      · exact kept_literal (flat_word (by decide)) _ _
      · exact kept_literal (flat_word (by decide)) _ _
      · exact kept_number _
      · exact kept_invalid _

theorem kept_elements (n : Nat) (elements : List (Value Bytes F)) {p : DirectParser} (valid : p.valid = true) :
    Kept p (parseElements doubles n elements p).2 := by
  cases n with
  | zero =>
    rw [parseElements]
    exact .failed p.rest
  | succ n =>
    rw [parseElements]
    exact kept_part (kept_value n valid) _ _ fun r rested => kept_elements n _ rested

theorem kept_members (n : Nat) (fields : List (Field Bytes F)) {p : DirectParser} (valid : p.valid = true) :
    Kept p (parseMembers doubles n fields p).2 := by
  cases n with
  | zero =>
    rw [parseMembers]
    exact .failed p.rest
  | succ n =>
    have key : Kept p p.skipWhitespace.parseStringBytes.2 := Kept.skipped.trans (kept_string p.skipWhitespace)
    rw [parseMembers]
    rcases name : Direct.parseStringBytes p.skipWhitespace.rest with _ | ⟨s,rest⟩
    · rw [string_none name] at key ⊢
      exact key
    · rw [string_some name] at key ⊢
      have pointed := kept_expect (b := colon) (by decide) {p.skipWhitespace with rest := rest}
      dsimp only
      cases read : Direct.expect colon rest with
      | none =>
        rw [expect_none (p := {p.skipWhitespace with rest := rest}) read] at pointed ⊢
        exact key.trans pointed
      | some rest =>
        rw [expect_some (p := {p.skipWhitespace with rest := _}) read] at pointed ⊢
        have first := (key.trans pointed).trans (kept_value n valid)
        exact kept_part first _ _ fun r rested => kept_members n _ rested

end

end containers

section fuel

variable {F : Type} {doubles : Doubles F} {p q : DirectParser}

theorem advance_length {b : UInt8} (found : q.skipWhitespace.peek = some b) :
    q.skipWhitespace.advance.rest.length + 1 ≤ q.rest.length := by
  have skipped := skipWhitespace_length q.rest
  rw [peek] at found
  obtain ⟨tail,found⟩ := List.head?_eq_some_iff.mp found
  have here : Json.skipWhitespace q.rest = b :: tail := found
  have left : q.skipWhitespace.advance.rest = tail := by
    rw [advance,found]
    rfl
  rw [here,List.length_cons] at skipped
  rw [left]
  exact skipped

theorem parseArray_congr {loop loop' : DirectParser → List (Value Bytes F) × DirectParser}
    (same : loop p.enter.advance.skipWhitespace = loop' p.enter.advance.skipWhitespace) :
    p.parseArray loop = p.parseArray loop' := by
  rw [parseArray,parseArray]
  dsimp only
  rw [same]

theorem parseObject_congr {loop loop' : DirectParser → List (Field Bytes F) × DirectParser}
    (same : loop p.enter.advance.skipWhitespace = loop' p.enter.advance.skipWhitespace) :
    p.parseObjectUntyped loop = p.parseObjectUntyped loop' := by
  rw [parseObjectUntyped,parseObjectUntyped]
  dsimp only
  rw [same]

theorem part_congr {α : Type} {next next' : DirectParser → List α × DirectParser} (before parts : List α)
    (same : q.valid = true → q.skipWhitespace.peek = some comma →
      next q.skipWhitespace.advance = next' q.skipWhitespace.advance) :
    (if !q.valid then (before,q)
      else
        let q := q.skipWhitespace
        if q.peek = some comma then next q.advance else (parts,q)) =
      if !q.valid then (before,q)
      else
        let q := q.skipWhitespace
        if q.peek = some comma then next' q.advance else (parts,q) := by
  by_cases lives : q.valid = true
  · have running : ¬(!q.valid) = true := by simp [lives]
    rw [if_neg running,if_neg running]
    by_cases found : q.skipWhitespace.peek = some comma
    · rw [if_pos found,same lives found,if_pos found]
    · rw [if_neg found,if_neg found]
  · have ended : (!q.valid) = true := by simpa using lives
    rw [if_pos ended,if_pos ended]

mutual

/-- Each nested value takes two calls and a byte at least. -/
theorem value_more (n : Nat) {p : DirectParser} (valid : p.valid = true) (enough : 2 * p.rest.length + 1 ≤ n) :
    parseValue doubles (n + 1) p = parseValue doubles n p := by
  obtain ⟨n,rfl⟩ : ∃ m, n = m + 1 := ⟨n - 1,by omega⟩
  have lives : p.skipWhitespace.valid = true := valid
  have skipped : p.skipWhitespace.rest.length ≤ p.rest.length := skipWhitespace_length p.rest
  conv_lhs => rw [parseValue]
  conv_rhs => rw [parseValue]
  generalize p.skipWhitespace = q at lives skipped
  rcases q with ⟨_ | ⟨b,tail⟩,v,active,deepest⟩
  · rfl
  · have inner := skipWhitespace_length tail
    simp only [List.length_cons] at skipped
    simp only [peek,List.head?_cons]
    split_ifs with string object array
    · rfl
    · exact parseObject_congr (members_more n [] lives (by
        change 2 * (Json.skipWhitespace tail).length + 2 ≤ n
        omega))
    · exact parseArray_congr (elements_more n [] lives (by
        change 2 * (Json.skipWhitespace tail).length + 2 ≤ n
        omega))
    all_goals rfl

theorem elements_more (n : Nat) (elements : List (Value Bytes F)) {p : DirectParser} (valid : p.valid = true)
    (enough : 2 * p.rest.length + 2 ≤ n) : parseElements doubles (n + 1) elements p = parseElements doubles n elements p := by
  obtain ⟨n,rfl⟩ : ∃ m, n = m + 1 := ⟨n - 1,by omega⟩
  have kept := kept_value doubles n valid
  conv_lhs => rw [parseElements,value_more n valid (by omega)]
  conv_rhs => rw [parseElements]
  refine part_congr _ _ fun lives found => elements_more n _ lives ?_
  have shorter := kept.shorter lives
  have left := advance_length found
  omega

theorem members_more (n : Nat) (fields : List (Field Bytes F)) {p : DirectParser} (valid : p.valid = true)
    (enough : 2 * p.rest.length + 2 ≤ n) : parseMembers doubles (n + 1) fields p = parseMembers doubles n fields p := by
  obtain ⟨n,rfl⟩ : ∃ m, n = m + 1 := ⟨n - 1,by omega⟩
  have key : Kept p p.skipWhitespace.parseStringBytes.2 := Kept.skipped.trans (kept_string p.skipWhitespace)
  conv_lhs => rw [parseMembers]
  conv_rhs => rw [parseMembers]
  rcases name : Direct.parseStringBytes p.skipWhitespace.rest with _ | ⟨s,rest⟩
  · rw [string_none name]
  · rw [string_some name] at key ⊢
    have pointed := kept_expect (b := colon) (by decide) {p.skipWhitespace with rest := rest}
    dsimp only
    cases read : Direct.expect colon rest with
    | none => rw [expect_none (p := {p.skipWhitespace with rest := rest}) read]
    | some rest =>
      rw [expect_some (p := {p.skipWhitespace with rest := _}) read] at pointed ⊢
      have reached := (key.trans pointed).shorter valid
      have size : rest.length ≤ p.rest.length := reached
      have kept := kept_value doubles n (p := {p.skipWhitespace with rest := rest}) valid
      dsimp only
      rw [value_more n (p := {p.skipWhitespace with rest := rest}) valid (by
        change 2 * rest.length + 1 ≤ n
        omega)]
      refine part_congr _ _ fun lives found => members_more n _ lives ?_
      have shorter := kept.shorter lives
      have left := advance_length found
      change _ ≤ rest.length at shorter
      omega

end

/-- The fuel of `parseRoot` lasts: more of it changes nothing. -/
theorem parseRoot_fuel (bytes : Bytes) {n : Nat} (enough : 2 * bytes.length + 1 ≤ n) :
    parseValue doubles n (new bytes) = parseRoot doubles bytes := by
  induction n, enough using Nat.le_induction with
  | base => rfl
  | succ n enough ih => rw [value_more n rfl enough,ih]

end fuel

section bound

variable {F : Type} {doubles : Doubles F}

/-- An input the guard lets through keeps the parser within the limit, with any fuel. -/
theorem deepest_le (n : Nat) {bytes : Bytes} {limit : Nat} (passes : nestingDepthExceeds bytes limit = false) :
    (parseValue doubles n (new bytes)).2.deepest ≤ limit := by
  have start : Guarded limit (new bytes) := ⟨Nat.zero_le limit,fun _ => by
    have scanned : (scanFrom limit 0 bytes).isNone = false := passes
    exact Option.isNone_eq_false_iff.mp scanned⟩
  exact ((kept_value doubles n rfl).guarded limit start).deepest

/-- On a text the calls nest as deep as the document does. -/
theorem deepest_render (t : Text) : (parseRoot doubles t.render).2.deepest = t.doc.depth := by
  apply le_antisymm
  · have passes : nestingDepthExceeds t.render t.doc.depth = false := by
      rw [exceeds_render]
      exact decide_eq_false (lt_irrefl _)
    exact deepest_le _ passes
  · have parsed : outcome (parseRoot doubles t.render) = _ := parseRoot_render t
    have kept := kept_value doubles (2 * t.render.length + 1) (p := new t.render) rfl
    rw [outcome] at parsed
    split at parsed
    · next lives =>
      have left : (parseRoot doubles t.render).2.rest = renderGap t.after := (Prod.mk.inj (Option.some.inj parsed)).2
      have scanned : scanFrom (parseRoot doubles t.render).2.deepest 0 t.render =
          scanFrom (parseRoot doubles t.render).2.deepest (parseRoot doubles t.render).2.active
            (parseRoot doubles t.render).2.rest := kept.scanned lives _ le_rfl
      rw [left,← List.append_nil (renderGap t.after),scan_gap,scan_nil] at scanned
      have passes : nestingDepthExceeds t.render (parseRoot doubles t.render).2.deepest = false :=
        congrArg Option.isNone scanned
      rw [exceeds_render] at passes
      exact Nat.not_lt.mp (of_decide_eq_false passes)
    · cases parsed

/-- The guard bounds the recursion, and on texts it says no less than that: there the calls nest as deep as the document does. -/
theorem guard_bounds (doubles : Doubles F) (bytes : Bytes) (limit : Nat) :
    (∀ n, 2 * bytes.length + 1 ≤ n → parseValue doubles n (new bytes) = parseRoot doubles bytes) ∧
      (nestingDepthExceeds bytes limit = false → (parseRoot doubles bytes).2.deepest ≤ limit) ∧
      ∀ t : Text, t.render = bytes →
        (nestingDepthExceeds bytes limit = true ↔ limit < t.doc.depth) ∧ (parseRoot doubles bytes).2.deepest = t.doc.depth := by
  refine ⟨fun n enough => parseRoot_fuel bytes enough,deepest_le _,?_⟩
  rintro t rfl
  refine ⟨?_,deepest_render t⟩
  rw [exceeds_render,decide_eq_true_iff]

end bound

end DirectParser

end Perry.Json
