import Perry.Json.DirectParser

/-! `build_tape`: one left-to-right pass that records where every token starts, with
each container's start linked to its end. -/
namespace Perry.Json

namespace Tape

inductive Kind where
  | objStart | objEnd | arrStart | arrEnd | key | string | number | true | false | null
  deriving DecidableEq, Repr

structure TapeEntry where
  offset : Nat
  kind : Kind
  link : Nat

/-- A cast to `u32`. -/
def asU32 (n : Nat) : Nat := n % 2 ^ 32

inductive State where
  | value | afterValue

structure Builder where
  state : State
  stack : List Nat
  entries : List TapeEntry
  rest : Bytes

section steps

variable (size : Nat)

/-- Where the unread part of the input starts. -/
def position (rest : Bytes) : Nat := asU32 (size - rest.length)

/-- Record a scalar token that ends before `after`. -/
def leaf (s : Builder) (kind : Kind) (after : Bytes) : Builder :=
  { s with state := .afterValue, entries := s.entries ++ [⟨position size s.rest,kind,0⟩], rest := after }

def openContainer (s : Builder) (kind : Kind) (after : Bytes) : Builder :=
  { s with
    stack := asU32 s.entries.length :: s.stack
    entries := s.entries ++ [⟨position size s.rest,kind,0⟩]
    rest := after }

/-- Record the end of the innermost container and link its start to it. -/
def closeContainer (s : Builder) (kind : Kind) (after : Bytes) : Option Builder :=
  match s.stack with
  | [] => none
  | idx :: stack => some {
      state := .afterValue
      stack
      entries := (s.entries ++ [TapeEntry.mk (position size s.rest) kind idx]).modify idx
        fun start => { start with link := asU32 s.entries.length }
      rest := after }

/-- Record a key and step over its colon. -/
def readKey (s : Builder) : Option Builder :=
  match s.rest with
  | [] => none
  | b :: tail =>
    if b = quote then do
      let after ← skipString (tail.length + 1) tail
      let rest ← Direct.expect colon after
      pure { s with state := .value, entries := s.entries ++ [⟨position size s.rest,.key,0⟩], rest }
    else none

def word (s : Builder) (text : Bytes) (kind : Kind) : Option Builder :=
  if s.rest.take text.length = text then some (leaf size s kind (s.rest.drop text.length)) else none

def stepValue (s : Builder) (c : UInt8) (tail : Bytes) : Option Builder :=
  if c = openBrace then
    let s := openContainer size s .objStart (skipWhitespace tail)
    if s.rest.head? = some closeBrace then closeContainer size s .objEnd s.rest.tail else readKey size s
  else if c = openBracket then
    let s := openContainer size s .arrStart (skipWhitespace tail)
    if s.rest.head? = some closeBracket then closeContainer size s .arrEnd s.rest.tail else some s
  else if c = quote then (skipString (tail.length + 1) tail).map (leaf size s .string)
  else if c = lowerT then word size s trueBytes .true
  else if c = lowerF then word size s falseBytes .false
  else if c = lowerN then word size s nullBytes .null
  else if c = minus ∨ isDigit c then (skipNumber s.rest).map (leaf size s .number)
  else none

/-- The step after a value, inside the container that starts at `top`. -/
def stepAfter (s : Builder) (top : Nat) (c : UInt8) (tail : Bytes) : Option Builder :=
  let kind := s.entries[top]?.map TapeEntry.kind
  if c = comma then
    if kind = some .objStart then readKey size { s with rest := skipWhitespace tail }
    else some { s with state := .value, rest := tail }
  else if c = closeBrace ∧ kind = some .objStart then closeContainer size s .objEnd tail
  else if c = closeBracket ∧ kind = some .arrStart then closeContainer size s .arrEnd tail
  else none

/-- The driver loop, up to its break. -/
def run : Nat → Builder → Option Builder
  | 0,_ => none
  | n + 1,s =>
    match skipWhitespace s.rest with
    | [] => some { s with rest := [] }
    | c :: tail =>
      match s.state with
      | .value => do
        let s ← stepValue size { s with rest := c :: tail } c tail
        run n s
      | .afterValue =>
        match s.stack with
        | [] => some { s with rest := c :: tail }
        | top :: _ => do
          let s ← stepAfter size { s with rest := c :: tail } top c tail
          run n s

end steps

def buildTape (bytes : Bytes) : Option (List TapeEntry) := do
  let s ← run bytes.length (bytes.length + 1) ⟨.value,[],[],bytes⟩
  if (skipWhitespace s.rest).isEmpty ∧ s.stack.isEmpty ∧ !s.entries.isEmpty then some s.entries else none

end Tape

section tape

open Tape

mutual

/-- The entries of a value that starts at byte `pos`, from index `idx` on. -/
def Doc.tape (pos idx : Nat) : Doc → List TapeEntry
  | .null => [⟨pos,.null,0⟩]
  | .bool b => [⟨pos,if b then .true else .false,0⟩]
  | .number _ => [⟨pos,.number,0⟩]
  | .string _ => [⟨pos,.string,0⟩]
  | .emptyArray gap => [⟨pos,.arrStart,idx + 1⟩,⟨pos + 1 + gap.length,.arrEnd,idx⟩]
  | .array elements =>
    let inner := elements.tape (pos + 1) (idx + 1)
    ⟨pos,.arrStart,idx + 1 + inner.length⟩ :: (inner ++ [⟨pos + 1 + elements.render.length,.arrEnd,idx⟩])
  | .emptyObject gap => [⟨pos,.objStart,idx + 1⟩,⟨pos + 1 + gap.length,.objEnd,idx⟩]
  | .object members =>
    let inner := members.tape (pos + 1) (idx + 1)
    ⟨pos,.objStart,idx + 1 + inner.length⟩ :: (inner ++ [⟨pos + 1 + members.render.length,.objEnd,idx⟩])

def Elements.tape (pos idx : Nat) : Elements → List TapeEntry
  | .last before d _ => d.tape (pos + before.length) idx
  | .cons before d after rest =>
    let entries := d.tape (pos + before.length) idx
    entries ++ rest.tape (pos + before.length + d.render.length + after.length + 1) (idx + entries.length)

def Members.tape (pos idx : Nat) : Members → List TapeEntry
  | .last before key mid after d _ =>
    ⟨pos + before.length,.key,0⟩ ::
      d.tape (pos + before.length + (renderString key).length + mid.length + 1 + after.length) (idx + 1)
  | .cons before key mid after d close rest =>
    let start := pos + before.length + (renderString key).length + mid.length + 1 + after.length
    let entries := ⟨pos + before.length,.key,0⟩ :: d.tape start (idx + 1)
    entries ++ rest.tape (start + d.render.length + close.length + 1) (idx + entries.length)

end

section

-- equations, made here once and not by the first proofs that unfold these
attribute [local simp] Doc.tape Elements.tape Members.tape

end

mutual

/-- There is a byte for every entry. -/
theorem Doc.tape_length_le (d : Doc) (pos idx : Nat) : (d.tape pos idx).length ≤ d.render.length := by
  cases d with
  | null => simp [Doc.tape,Doc.render,nullBytes]
  | bool b => cases b <;> simp [Doc.tape,Doc.render,trueBytes,falseBytes]
  | number n =>
    obtain ⟨b,bs,rendered,-⟩ := n.render_cons
    simp [Doc.tape,Doc.render,rendered]
  | string s => simp [Doc.tape,Doc.render,renderString]
  | emptyArray gap => simp [Doc.tape,Doc.render]
  | array elements =>
    have inner := elements.tape_length_le (pos + 1) (idx + 1)
    simp only [Doc.tape,Doc.render,List.length_cons,List.length_append]
    omega
  | emptyObject gap => simp [Doc.tape,Doc.render]
  | object members =>
    have inner := members.tape_length_le (pos + 1) (idx + 1)
    simp only [Doc.tape,Doc.render,List.length_cons,List.length_append]
    omega

theorem Elements.tape_length_le (es : Elements) (pos idx : Nat) : (es.tape pos idx).length ≤ es.render.length := by
  cases es with
  | last before d after =>
    have inner := d.tape_length_le (pos + before.length) idx
    simp only [Elements.tape,Elements.render,List.length_append]
    omega
  | cons before d after rest =>
    have first := d.tape_length_le (pos + before.length) idx
    have others := rest.tape_length_le (pos + before.length + d.render.length + after.length + 1)
      (idx + (d.tape (pos + before.length) idx).length)
    simp only [Elements.tape,Elements.render,List.length_append,List.length_cons]
    omega

theorem Members.tape_length_le (ms : Members) (pos idx : Nat) : (ms.tape pos idx).length ≤ ms.render.length := by
  cases ms with
  | last before key mid after d close =>
    have inner := d.tape_length_le (pos + before.length + (renderString key).length + mid.length + 1 + after.length) (idx + 1)
    simp only [Members.tape,Members.render,List.length_append,List.length_cons]
    omega
  | cons before key mid after d close rest =>
    have first := d.tape_length_le (pos + before.length + (renderString key).length + mid.length + 1 + after.length) (idx + 1)
    have others := rest.tape_length_le
      (pos + before.length + (renderString key).length + mid.length + 1 + after.length + d.render.length + close.length + 1)
      (idx + ((d.tape (pos + before.length + (renderString key).length + mid.length + 1 + after.length)
        (idx + 1)).length + 1))
    simp only [Members.tape,Members.render,List.length_append,List.length_cons]
    omega

end

end tape

section build

open Tape

variable {size : Nat}

/-- The driver goes from one state to the other, a byte at least for each turn. -/
def Reaches (size : Nat) (s s' : Builder) : Prop :=
  ∃ k, k + s'.rest.length ≤ s.rest.length ∧ ∀ n, run size (k + n) s = run size n s'

theorem Reaches.trans {s₁ s₂ s₃ : Builder} (first : Reaches size s₁ s₂) (second : Reaches size s₂ s₃) :
    Reaches size s₁ s₃ := by
  obtain ⟨k,shorter,same⟩ := first
  obtain ⟨l,shorter',same'⟩ := second
  refine ⟨k + l,by omega,fun n => ?_⟩
  rw [Nat.add_assoc,same,same']

theorem skipWhitespace_length_le (input : Bytes) : (skipWhitespace input).length ≤ input.length :=
  (List.dropWhile_suffix _).length_le

theorem reaches_skip (size : Nat) (state : State) (stack : List Nat) (entries : List TapeEntry) (input : Bytes) :
    Reaches size ⟨state,stack,entries,input⟩ ⟨state,stack,entries,skipWhitespace input⟩ := by
  refine ⟨0,by rw [Nat.zero_add]; exact skipWhitespace_length_le input,fun n => ?_⟩
  rw [Nat.zero_add]
  cases n with
  | zero => rw [run,run]
  | succ n =>
    rw [run,run]
    dsimp only
    rw [skipWhitespace_skip]

/-- White space before a token is skipped. -/
theorem reaches_gap (state : State) (stack : List Nat) (entries : List TapeEntry) (gap : Gap) {c : UInt8}
    (token : isSpace c = false) (rest : Bytes) :
    Reaches size ⟨state,stack,entries,renderGap gap ++ c :: rest⟩ ⟨state,stack,entries,c :: rest⟩ := by
  have skipped := reaches_skip size state stack entries (renderGap gap ++ c :: rest)
  rw [skip_gap gap token] at skipped
  exact skipped

theorem reaches_value {stack : List Nat} {entries : List TapeEntry} {c : UInt8} {tail : Bytes} {s : Builder}
    (token : isSpace c = false) (step : stepValue size ⟨.value,stack,entries,c :: tail⟩ c tail = some s)
    (shorter : s.rest.length ≤ tail.length) : Reaches size ⟨.value,stack,entries,c :: tail⟩ s := by
  refine ⟨1,by rw [List.length_cons]; omega,fun n => ?_⟩
  have here := skip_gap [] token tail
  rw [renderGap,List.map_nil,List.nil_append] at here
  rw [Nat.add_comm,run]
  dsimp only
  rw [here]
  dsimp only
  rw [step]
  rfl

theorem reaches_after {top : Nat} {stack : List Nat} {entries : List TapeEntry} {c : UInt8} {tail : Bytes} {s : Builder}
    (token : isSpace c = false) (step : stepAfter size ⟨.afterValue,top :: stack,entries,c :: tail⟩ top c tail = some s)
    (shorter : s.rest.length ≤ tail.length) : Reaches size ⟨.afterValue,top :: stack,entries,c :: tail⟩ s := by
  refine ⟨1,by rw [List.length_cons]; omega,fun n => ?_⟩
  have here := skip_gap [] token tail
  rw [renderGap,List.map_nil,List.nil_append] at here
  rw [Nat.add_comm,run]
  dsimp only
  rw [here]
  dsimp only
  rw [step]
  rfl

theorem position_eq (small : size < 2 ^ 32) {pos : Nat} {rest : Bytes} (whole : pos + rest.length = size) :
    position size rest = pos := by
  rw [position,asU32,← whole,Nat.add_sub_cancel]
  exact Nat.mod_eq_of_lt (by omega)

theorem modify_append {α : Type} (f : α → α) (l : List α) (a : α) (r : List α) :
    (l ++ a :: r).modify l.length f = l ++ f a :: r := by
  induction l with
  | nil => rfl
  | cons b l ih => rw [List.cons_append,List.length_cons,List.modify_succ_cons,ih,List.cons_append]

/-- The end of a container links its start. -/
theorem close_eq (small : size < 2 ^ 32) {pos : Nat} {c : UInt8} {rest : Bytes} (whole : pos + (c :: rest).length = size)
    (state : State) (stack : List Nat) (entries inner : List TapeEntry) (start : TapeEntry)
    (count : entries.length + 1 + inner.length ≤ pos) (kind : Kind) :
    closeContainer size ⟨state,entries.length :: stack,entries ++ start :: inner,c :: rest⟩ kind rest =
      some ⟨.afterValue,stack,
        entries ++ { start with link := entries.length + 1 + inner.length } :: (inner ++ [⟨pos,kind,entries.length⟩]),rest⟩ := by
  have link : asU32 (entries ++ start :: inner).length = entries.length + 1 + inner.length := by
    rw [asU32,List.length_append,List.length_cons,Nat.mod_eq_of_lt (by omega)]
    omega
  rw [closeContainer]
  dsimp only
  rw [position_eq small whole,link,List.append_assoc,List.cons_append,modify_append]

theorem skipString_literal (items : List Item) (rest : Bytes) :
    skipString ((renderItems items ++ quote :: rest).length + 1) (renderItems items ++ quote :: rest) = some rest := by
  apply skip_items
  rw [List.length_append]
  omega

theorem readKey_eq (small : size < 2 ^ 32) (pos : Nat) (key : List Item) (mid : Gap) (rest : Bytes)
    (whole : pos + (renderString key ++ (renderGap mid ++ colon :: rest)).length = size) (state : State) (stack : List Nat)
    (entries : List TapeEntry) :
    readKey size ⟨state,stack,entries,renderString key ++ (renderGap mid ++ colon :: rest)⟩ =
      some ⟨.value,stack,entries ++ [⟨pos,.key,0⟩],rest⟩ := by
  rw [readKey]
  dsimp only
  rw [position_eq small whole]
  rw [renderString,List.cons_append,List.append_assoc,List.singleton_append]
  simp only [if_true,skipString_literal,Option.bind_eq_bind,Option.bind_some,
    expect_gap mid (show isSpace colon = false by decide)]
  rfl

theorem leaf_eq (small : size < 2 ^ 32) {pos : Nat} {input : Bytes} (whole : pos + input.length = size) (state : State)
    (stack : List Nat) (entries : List TapeEntry) (kind : Kind) (after : Bytes) :
    leaf size ⟨state,stack,entries,input⟩ kind after = ⟨.afterValue,stack,entries ++ [⟨pos,kind,0⟩],after⟩ := by
  rw [leaf,position_eq small whole]

theorem word_eq (small : size < 2 ^ 32) {pos : Nat} {text rest : Bytes} (whole : pos + (text ++ rest).length = size)
    (state : State) (stack : List Nat) (entries : List TapeEntry) (kind : Kind) :
    word size ⟨state,stack,entries,text ++ rest⟩ text kind =
      some ⟨.afterValue,stack,entries ++ [⟨pos,kind,0⟩],rest⟩ := by
  rw [word]
  dsimp only
  rw [List.take_left,if_pos rfl,leaf_eq small whole,List.drop_left]

theorem open_eq (small : size < 2 ^ 32) {pos : Nat} {input : Bytes} (whole : pos + input.length = size) (state : State)
    (stack : List Nat) (entries : List TapeEntry) (count : entries.length ≤ pos) (kind : Kind) (after : Bytes) :
    openContainer size ⟨state,stack,entries,input⟩ kind after =
      ⟨state,entries.length :: stack,entries ++ [⟨pos,kind,0⟩],after⟩ := by
  have index : asU32 entries.length = entries.length := Nat.mod_eq_of_lt (by omega)
  rw [openContainer,position_eq small whole]
  dsimp only
  rw [index]

theorem length_gap (gap : Gap) : (renderGap gap).length = gap.length := List.length_map ..

theorem kind_top (entries inner : List TapeEntry) (start : TapeEntry) :
    (entries ++ start :: inner)[entries.length]?.map TapeEntry.kind = some start.kind := by
  rw [List.getElem?_append_right (Nat.le_refl _),Nat.sub_self]
  rfl

theorem kind_append {entries : List TapeEntry} {top : Nat} {k : Kind}
    (kind : entries[top]?.map TapeEntry.kind = some k) (more : List TapeEntry) :
    (entries ++ more)[top]?.map TapeEntry.kind = some k := by
  obtain ⟨start,found,same⟩ := Option.map_eq_some_iff.mp kind
  obtain ⟨inside,-⟩ := List.getElem?_eq_some_iff.mp found
  rw [List.getElem?_append_left inside,found,Option.map_some,same]

theorem skip_doc (gap : Gap) (d : Doc) (rest : Bytes) :
    skipWhitespace (renderGap gap ++ (d.render ++ rest)) = d.render ++ rest := by
  obtain ⟨b,bs,rendered,starts⟩ := d.render_cons
  rw [rendered,List.cons_append,skip_gap gap starts.not.1]

theorem skip_string (gap : Gap) (key : List Item) (rest : Bytes) :
    skipWhitespace (renderGap gap ++ (renderString key ++ rest)) = renderString key ++ rest := by
  rw [renderString,List.cons_append,skip_gap gap (by decide)]

mutual

/-- From the first byte of a value the driver records its entries and stops after it. -/
theorem Doc.builds (small : size < 2 ^ 32) (d : Doc) (stack : List Nat) (entries : List TapeEntry) {rest : Bytes}
    (ends : Ends rest) (pos : Nat) (whole : pos + (d.render ++ rest).length = size) (count : entries.length ≤ pos) :
    Reaches size ⟨.value,stack,entries,d.render ++ rest⟩ ⟨.afterValue,stack,entries ++ d.tape pos entries.length,rest⟩ := by
  cases d with
  | null =>
    refine reaches_value (by decide) ?_ (by simp; omega)
    exact word_eq small whole .value stack entries .null
  | bool v =>
    cases v with
    | false =>
      refine reaches_value (by decide) ?_ (by simp; omega)
      exact word_eq small whole .value stack entries .false
    | true =>
      refine reaches_value (by decide) ?_ (by simp; omega)
      exact word_eq small whole .value stack entries .true
  | number m =>
    obtain ⟨b,bs,rendered,first⟩ := m.render_cons
    have skipped := skipNumber_render m ends.stops
    rw [Doc.render] at whole ⊢
    have starts : Starts b := by
      unfold Starts
      obtain rfl | digit := first
      · decide
      · simp [digit]
    rw [rendered,List.cons_append] at whole skipped ⊢
    refine reaches_value starts.not.1 ?_ (by simp)
    rw [stepValue]
    simp only [number_start first,if_false]
    rw [if_pos first,skipped,Option.map_some,leaf_eq small whole]
    rfl
  | string items =>
    rw [Doc.render,renderString,List.cons_append,List.append_assoc,List.singleton_append] at whole ⊢
    refine reaches_value (by decide) ?_ (by simp; omega)
    rw [stepValue,if_neg (by decide),if_neg (by decide),if_pos rfl,skipString_literal,Option.map_some,leaf_eq small whole]
    rfl
  | emptyArray gap =>
    rw [Doc.render,List.cons_append,List.append_assoc,List.singleton_append] at whole ⊢
    refine reaches_value (by decide) ?_ (by simp; omega)
    have shut : pos + 1 + gap.length + (closeBracket :: rest).length = size := by
      rw [List.length_cons,List.length_append,length_gap] at whole
      omega
    rw [stepValue,if_neg (by decide),if_pos rfl,open_eq small whole _ _ _ count,skip_gap gap (by decide)]
    dsimp only
    rw [List.head?_cons,if_pos rfl,List.tail_cons,close_eq small shut _ _ _ [] _ (by simp; omega)]
    rfl
  | array elements =>
    rw [Doc.render,List.cons_append,List.append_assoc,List.singleton_append] at whole ⊢
    obtain ⟨c,cs,shape,notClose⟩ := elements.skip_cons (closeBracket :: rest)
    have inside : pos + 1 + (elements.render ++ closeBracket :: rest).length = size := by
      rw [List.length_cons] at whole
      omega
    have shut : pos + 1 + elements.render.length + (closeBracket :: rest).length = size := by
      rw [List.length_append] at inside
      omega
    have inner := elements.builds small entries.length stack (entries ++ [⟨pos,.arrStart,0⟩])
      (kind_top entries [] ⟨pos,.arrStart,0⟩) rest (pos + 1) inside (by rw [List.length_append,List.length_singleton]; omega)
    have size_le := elements.tape_length_le (pos + 1) (entries.length + 1)
    rw [List.length_append,List.length_singleton,List.append_assoc,List.singleton_append] at inner
    refine (reaches_value (by decide) ?_ ?_).trans (inner.trans (reaches_after (by decide) ?_ (Nat.le_refl _)))
    · rw [stepValue,if_neg (by decide),if_pos rfl,open_eq small whole _ _ _ count,shape]
      dsimp only
      rw [List.head?_cons,if_neg (by simpa using notClose)]
    · exact skipWhitespace_length_le _
    · rw [stepAfter,kind_top,if_neg (by decide),if_neg (fun both => by cases both.1),if_pos ⟨rfl,rfl⟩,
        close_eq small shut _ _ _ _ _ (by omega)]
      rfl
  | emptyObject gap =>
    rw [Doc.render,List.cons_append,List.append_assoc,List.singleton_append] at whole ⊢
    refine reaches_value (by decide) ?_ (by simp; omega)
    have shut : pos + 1 + gap.length + (closeBrace :: rest).length = size := by
      rw [List.length_cons,List.length_append,length_gap] at whole
      omega
    rw [stepValue,if_pos rfl,open_eq small whole _ _ _ count,skip_gap gap (by decide)]
    dsimp only
    rw [List.head?_cons,if_pos rfl,List.tail_cons,close_eq small shut _ _ _ [] _ (by simp; omega)]
    rfl
  | object members =>
    rw [Doc.render,List.cons_append,List.append_assoc,List.singleton_append] at whole ⊢
    obtain ⟨cs,shape⟩ := members.skip_cons (closeBrace :: rest)
    have inside : pos + 1 + (members.render ++ closeBrace :: rest).length = size := by
      rw [List.length_cons] at whole
      omega
    have shut : pos + 1 + members.render.length + (closeBrace :: rest).length = size := by
      rw [List.length_append] at inside
      omega
    obtain ⟨s,read,shorter,inner⟩ := members.builds small entries.length stack (entries ++ [⟨pos,.objStart,0⟩])
      (kind_top entries [] ⟨pos,.objStart,0⟩) .value rest (pos + 1) inside (by rw [List.length_append,List.length_singleton]; omega)
    have size_le := members.tape_length_le (pos + 1) (entries.length + 1)
    rw [List.length_append,List.length_singleton,List.append_assoc,List.singleton_append] at inner
    refine (reaches_value (by decide) ?_ shorter).trans (inner.trans (reaches_after (by decide) ?_ (Nat.le_refl _)))
    · rw [stepValue,if_pos rfl,open_eq small whole _ _ _ count,← read,shape]
      rfl
    · rw [stepAfter,kind_top,if_neg (by decide),if_pos ⟨rfl,rfl⟩,close_eq small shut _ _ _ _ _ (by omega)]
      rfl

theorem Elements.builds (small : size < 2 ^ 32) (es : Elements) (top : Nat) (stack : List Nat) (entries : List TapeEntry)
    (kind : entries[top]?.map TapeEntry.kind = some .arrStart) (rest : Bytes) (pos : Nat)
    (whole : pos + (es.render ++ closeBracket :: rest).length = size) (count : entries.length ≤ pos) :
    Reaches size ⟨.value,top :: stack,entries,skipWhitespace (es.render ++ closeBracket :: rest)⟩
      ⟨.afterValue,top :: stack,entries ++ es.tape pos entries.length,closeBracket :: rest⟩ := by
  cases es with
  | last before d after =>
    rw [Elements.render,List.append_assoc,List.append_assoc] at whole ⊢
    rw [skip_doc]
    rw [List.length_append,length_gap] at whole
    exact (d.builds small (top :: stack) entries (ends_gap after (.inr (.inl rfl)) rest) _ (by omega) (by omega)).trans
      (reaches_gap _ _ _ after (by decide) rest)
  | cons before d after more =>
    rw [Elements.render,List.append_assoc,List.append_assoc,List.append_assoc,List.cons_append] at whole ⊢
    rw [skip_doc]
    rw [List.length_append,length_gap] at whole
    have first := d.builds small (top :: stack) entries (ends_gap after (.inl rfl) (more.render ++ closeBracket :: rest))
      (pos + before.length) (by omega) (by omega)
    have tape_le := d.tape_length_le (pos + before.length) entries.length
    rw [List.length_append,List.length_append,length_gap,List.length_cons] at whole
    have kept : (entries ++ d.tape (pos + before.length) entries.length)[top]?.map TapeEntry.kind = some .arrStart :=
      kind_append kind _
    have others := more.builds small top stack _ kept rest
      (pos + before.length + d.render.length + after.length + 1) (by omega)
      (by rw [List.length_append]; omega)
    rw [List.length_append,List.append_assoc] at others
    refine (first.trans (reaches_gap _ _ _ after (by decide) _)).trans
      ((reaches_after (by decide) ?_ (Nat.le_refl _)).trans ((reaches_skip _ _ _ _ _).trans others))
    rw [stepAfter,if_pos rfl]
    dsimp only
    rw [kept,if_neg (by decide)]

theorem Members.builds (small : size < 2 ^ 32) (ms : Members) (top : Nat) (stack : List Nat) (entries : List TapeEntry)
    (kind : entries[top]?.map TapeEntry.kind = some .objStart) (state : State) (rest : Bytes)
    (pos : Nat)
    (whole : pos + (ms.render ++ closeBrace :: rest).length = size) (count : entries.length ≤ pos) :
    ∃ s, readKey size ⟨state,top :: stack,entries,skipWhitespace (ms.render ++ closeBrace :: rest)⟩ = some s ∧
      s.rest.length ≤ (ms.render ++ closeBrace :: rest).length ∧
      Reaches size s ⟨.afterValue,top :: stack,entries ++ ms.tape pos entries.length,closeBrace :: rest⟩ := by
  cases ms with
  | last before key mid after d close =>
    have shape : Members.render (.last before key mid after d close) ++ closeBrace :: rest =
        renderGap before ++ (renderString key ++ (renderGap mid ++ colon :: (renderGap after ++
          (d.render ++ (renderGap close ++ closeBrace :: rest))))) := by
      simp only [Members.render,List.append_assoc,List.cons_append]
    rw [shape] at whole ⊢
    simp only [List.length_append,List.length_cons,length_gap] at whole
    rw [skip_string,readKey_eq small (pos + before.length) key mid _ (by
      simp only [List.length_append,List.length_cons,length_gap]
      omega)]
    refine ⟨_,rfl,by simp only [List.length_append,List.length_cons]; omega,?_⟩
    refine (reaches_skip _ _ _ _ _).trans ?_
    rw [skip_doc]
    have value := d.builds small (top :: stack) (entries ++ [⟨pos + before.length,.key,0⟩])
      (ends_gap close (.inr (.inr rfl)) rest)
      (pos + before.length + (renderString key).length + mid.length + 1 + after.length)
      (by simp only [List.length_append,List.length_cons,length_gap]; omega)
      (by rw [List.length_append,List.length_singleton]; omega)
    rw [List.length_append,List.length_singleton,List.append_assoc] at value
    exact value.trans (reaches_gap _ _ _ close (by decide) rest)
  | cons before key mid after d close more =>
    have shape : Members.render (.cons before key mid after d close more) ++ closeBrace :: rest =
        renderGap before ++ (renderString key ++ (renderGap mid ++ colon :: (renderGap after ++
          (d.render ++ (renderGap close ++ comma :: (more.render ++ closeBrace :: rest)))))) := by
      simp only [Members.render,List.append_assoc,List.cons_append]
    rw [shape] at whole ⊢
    simp only [List.length_append,List.length_cons,length_gap] at whole
    rw [skip_string,readKey_eq small (pos + before.length) key mid _ (by
      simp only [List.length_append,List.length_cons,length_gap]
      omega)]
    refine ⟨_,rfl,by simp only [List.length_append,List.length_cons]; omega,?_⟩
    refine (reaches_skip _ _ _ _ _).trans ?_
    rw [skip_doc]
    have value := d.builds small (top :: stack) (entries ++ [⟨pos + before.length,.key,0⟩])
      (ends_gap close (.inl rfl) (more.render ++ closeBrace :: rest))
      (pos + before.length + (renderString key).length + mid.length + 1 + after.length)
      (by simp only [List.length_append,List.length_cons,length_gap]; omega)
      (by rw [List.length_append,List.length_singleton]; omega)
    rw [List.length_append,List.length_singleton,List.append_assoc] at value
    have tape_le := d.tape_length_le
      (pos + before.length + (renderString key).length + mid.length + 1 + after.length) (entries.length + 1)
    have kept := kind_append kind ([⟨pos + before.length,.key,0⟩] ++
      d.tape (pos + before.length + (renderString key).length + mid.length + 1 + after.length) (entries.length + 1))
    obtain ⟨s,read,shorter,others⟩ := more.builds small top stack _ kept .afterValue rest
      (pos + before.length + (renderString key).length + mid.length + 1 + after.length + d.render.length +
        close.length + 1)
      (by simp only [List.length_append,List.length_cons]; omega)
      (by simp only [List.length_append,List.length_cons,List.length_nil]; omega)
    refine (value.trans (reaches_gap _ _ _ close (by decide) _)).trans ((reaches_after (by decide) ?_ shorter).trans ?_)
    · rw [stepAfter,if_pos rfl]
      dsimp only
      rw [kept,if_pos rfl,read]
    · rw [List.length_append,List.append_assoc] at others
      exact others

end

/-- The builder's tape of a text, whose length fits the 32-bit offsets. -/
theorem buildTape_render (t : Text) (small : t.render.length < 2 ^ 32) :
    buildTape t.render = some (t.doc.tape t.before.length 0) := by
  have whole : t.before.length + (t.doc.render ++ renderGap t.after).length = t.render.length := by
    simp only [Text.render,List.length_append,length_gap]
    omega
  have start : skipWhitespace t.render = t.doc.render ++ renderGap t.after := by
    rw [Text.render,List.append_assoc,skip_doc]
  have value := t.doc.builds small [] [] (ends_gap_end t.after) _ whole (Nat.zero_le _)
  rw [← start] at value
  obtain ⟨k,enough,same⟩ := (reaches_skip _ .value [] [] t.render).trans value
  obtain ⟨n,fuel⟩ : ∃ n, t.render.length + 1 = k + (n + 1) := ⟨t.render.length - k,by
    dsimp only at enough
    omega⟩
  have nonempty : t.doc.tape t.before.length 0 ≠ [] := by
    cases t.doc <;> simp [Doc.tape]
  have blank : skipWhitespace [] = [] := rfl
  rw [buildTape,fuel,same,run]
  simp [skip_gap_end,nonempty,blank]

end build

end Perry.Json
